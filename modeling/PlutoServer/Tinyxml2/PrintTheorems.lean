import PlutoServer.Tinyxml2.Entities
import PlutoServer.Tinyxml2.ParseTheorems
import PlutoServer.Tinyxml2.Print

/-!
# What is printed is parsed

A document is printed and parsed again, both with the default options. `parse_printDocument` says
that the nodes and their values are the same as before, in both modes of the printer, if the
document has a node, none of the nodes at the top is a text (`NoText`), and names and values are
such that they can be written (`Printable`). In the mode with line breaks, no element may follow a
text at once (`Spaced`), since it is indented and the spaces would become part of the text.
-/

namespace PlutoServer.Tinyxml2

/-! ## Documents that can be printed -/

/-- A value without zeros, which end it, and without CRs, which are read as LFs. -/
def Plain (v : List UInt8) : Prop := 0 ∉ v ∧ CR ∉ v

instance : DecidablePred Plain := fun v => inferInstanceAs (Decidable (0 ∉ v ∧ CR ∉ v))

/-- The value of a leaf other than a text does not contain its end, and does not make it a leaf of
another kind. -/
def Leaf.Holds (kind : Leaf) (v : List UInt8) : Prop :=
  (∀ k < v.length, ¬ kind.endTag <+: (v ++ kind.endTag).drop k) ∧
    (kind = .unknown → ¬ [45, 45] <+: v ∧ ¬ [91, 67, 68, 65, 84, 65, 91] <+: v)

/-- The attributes as the parser stores them after they have been printed. -/
def escapedAttributes (attributes : List (List UInt8 × List UInt8)) :
    List (List UInt8 × StrPair) :=
  attributes.map fun a => (a.1, ⟨printString true false a.2, XMLOptions.attributeFlags {}⟩)

/-- All leaves but texts are read in the same way. -/
theorem Leaf.flags_eq {kind : Leaf} (hkind : kind ≠ .text) : kind.flags {} = .COMMENT := by
  cases kind with
  | text => exact absurd rfl hkind
  | cdata => rfl
  | comment => rfl
  | declaration => rfl
  | unknown => rfl

namespace XMLNodes

variable {σ : Type}

def StartsWithText : XMLNodes σ → Prop
  | .leaf kind _ _ => kind = .text
  | _ => False

def StartsWithElement : XMLNodes σ → Prop
  | .element .. => True
  | _ => False

def EndsInText : XMLNodes σ → Prop
  | .nil => False
  | .leaf kind _ next => (kind = .text ∧ next = .nil) ∨ next.EndsInText
  | .element _ _ _ next => next.EndsInText

/-- No text is among these nodes, except for CDATA sections and what is inside of elements. -/
def NoText : XMLNodes σ → Prop
  | .nil => True
  | .leaf kind _ next => kind ≠ .text ∧ next.NoText
  | .element _ _ _ next => next.NoText

/-- Nodes that can be written: names are names, texts are not blank and not next to each other, and
the values of the other nodes do not contain their end. -/
def Printable : XMLNodes (List UInt8) → Prop
  | .nil => True
  | .leaf kind v next => Plain v ∧ next.Printable ∧
      if kind = .text then (∃ b ∈ v, ¬ XMLUtil.isWhiteSpace b) ∧ ¬ next.StartsWithText
      else kind.Holds v
  | .element name attributes firstChild next => IsName name ∧
      (∀ a ∈ attributes, IsName a.1 ∧ Plain a.2) ∧ (attributes.map Prod.fst).Nodup ∧
      firstChild.Printable ∧ next.Printable

/-- No element follows a text at once. -/
def Spaced : XMLNodes (List UInt8) → Prop
  | .nil => True
  | .leaf kind _ next => (kind = .text → ¬ next.StartsWithElement) ∧ next.Spaced
  | .element _ _ firstChild next => firstChild.Spaced ∧ next.Spaced

/-- The nodes as the parser stores them after they have been printed. -/
def escaped : XMLNodes (List UInt8) → XMLNodes StrPair
  | .nil => .nil
  | .leaf kind v next =>
    .leaf kind ⟨if kind = .text then printString true true v else v, kind.flags {}⟩ next.escaped
  | .element name attributes firstChild next =>
    .element name (escapedAttributes attributes) firstChild.escaped next.escaped

/-- What has been printed is read as it was. -/
theorem read_escaped {nodes : XMLNodes (List UInt8)} (h : nodes.Printable) :
    nodes.escaped.read = some nodes := by
  induction nodes with
  | nil => rfl
  | leaf kind v next ih =>
    obtain ⟨⟨hzero, hcr⟩, hnext, -⟩ := h
    have hvalue : StrPair.getStr ⟨if kind = .text then printString true true v else v,
        kind.flags {}⟩ = some v := by
      by_cases hkind : kind = .text
      · rw [if_pos hkind, hkind]
        exact getStr_printString true hzero hcr
      · rw [if_neg hkind]
        rw [Leaf.flags_eq hkind]
        exact (StrPair.reads_self rfl hcr).getStr_eq (by decide) rfl hzero
    simp only [escaped, read, hvalue, ih hnext]
    rfl
  | element name attributes firstChild next ihc ih =>
    obtain ⟨-, hattr, -, hchildren, hnext⟩ := h
    have hattributes : (escapedAttributes attributes).mapM (fun a => a.2.getStr.map (a.1, ·)) =
        some attributes := by
      induction attributes with
      | nil => rfl
      | cons a attributes iha =>
        obtain ⟨⟨-, hzero, hcr⟩, hrest⟩ := List.forall_mem_cons.mp hattr
        have hvalue : StrPair.getStr ⟨printString true false a.2, XMLOptions.attributeFlags {}⟩ =
            some a.2 := getStr_printString false hzero hcr
        rw [escapedAttributes, List.map_cons, List.mapM_cons, ← escapedAttributes, iha hrest]
        simp only [hvalue]
        rfl
    simp only [escaped, read, hattributes, ihc hchildren, ih hnext]
    rfl

end XMLNodes

/-! ## What is printed for the values -/

theorem escape_spec (restricted : Bool) {b : UInt8} (hb : b ≠ 0) :
    0 ∉ escape restricted b ∧ 60 ∉ escape restricted b ∧
      (restricted = false → 34 ∉ escape restricted b) ∧
      (¬ XMLUtil.isWhiteSpace b → ∃ c ∈ escape restricted b, ¬ XMLUtil.isWhiteSpace c) := by
  have hall : ∀ r ∈ [false, true], ∀ n < 256, n ≠ 0 →
      0 ∉ escape r (UInt8.ofNat n) ∧ 60 ∉ escape r (UInt8.ofNat n) ∧
      (r = false → 34 ∉ escape r (UInt8.ofNat n)) ∧
      (¬ XMLUtil.isWhiteSpace (UInt8.ofNat n) →
        ∃ c ∈ escape r (UInt8.ofNat n), ¬ XMLUtil.isWhiteSpace c) := by
    decide +kernel
  have hn : b.toNat ≠ 0 := fun h => hb (UInt8.toNat_inj.mp h)
  have := hall restricted (by cases restricted <;> decide) b.toNat b.toNat_lt hn
  rwa [UInt8.ofNat_toNat] at this

theorem printString_eq (restricted : Bool) (v : List UInt8) :
    printString true restricted v = v.flatMap (escape restricted) := by
  rw [printString, if_pos rfl, printRun_eq, List.nil_append]

theorem not_mem_printString {restricted : Bool} {v : List UInt8} {c : UInt8}
    (h : ∀ b ∈ v, c ∉ escape restricted b) : c ∉ printString true restricted v := by
  rw [printString_eq, List.mem_flatMap]
  rintro ⟨b, hb, hc⟩
  exact h b hb hc

theorem Plain.printString {v : List UInt8} (h : Plain v) (restricted : Bool) :
    0 ∉ printString true restricted v ∧ 60 ∉ printString true restricted v ∧
      34 ∉ printString true false v := by
  have hne : ∀ b ∈ v, b ≠ 0 := fun b hb hzero => h.1 (hzero ▸ hb)
  exact ⟨not_mem_printString fun b hb => (escape_spec restricted (hne b hb)).1,
    not_mem_printString fun b hb => (escape_spec restricted (hne b hb)).2.1,
    not_mem_printString fun b hb => (escape_spec false (hne b hb)).2.2.1 rfl⟩

theorem Plain.printString_not_blank {v : List UInt8} (h : Plain v)
    (hv : ∃ b ∈ v, ¬ XMLUtil.isWhiteSpace b) :
    ∃ b ∈ Tinyxml2.printString true true v, ¬ XMLUtil.isWhiteSpace b := by
  obtain ⟨b, hb, hwhite⟩ := hv
  obtain ⟨c, hc, hc'⟩ := (escape_spec true fun hzero => h.1 (hzero ▸ hb)).2.2.2 hwhite
  exact ⟨c, by rw [printString_eq]; exact List.mem_flatMap.mpr ⟨b, hb, hc⟩, hc'⟩

/-- What does not contain a byte is found in front of it. -/
theorem prefix_of_prefix_append_cons {t v r : List UInt8} {b : UInt8} (hb : b ∉ t)
    (h : t <+: v ++ b :: r) : t <+: v := by
  rcases List.prefix_or_prefix_of_prefix h (List.prefix_append v (b :: r)) with hv | hv
  · exact hv
  · obtain ⟨t, rfl⟩ := hv
    rw [List.prefix_append_right_inj] at h
    cases t with
    | nil => rw [List.append_nil]
    | cons c t =>
      have hc : c = b := (List.cons_prefix_cons.mp h).1
      exact absurd (List.mem_append_right v (hc ▸ List.mem_cons_self)) hb

/-- The value of a leaf is read up to the end that is printed behind it. -/
theorem Leaf.Holds.upTo {kind : Leaf} {v : List UInt8} (h : kind.Holds v) (rest : List UInt8) :
    UpTo kind.endTag (v ++ (kind.endTag ++ rest)) v rest := by
  refine ⟨rfl, fun k hk hpre => h.1 k hk ?_⟩
  rw [← List.append_assoc, List.drop_append_of_le_length (by simp; omega)] at hpre
  refine List.prefix_of_prefix_length_le hpre (List.prefix_append _ _) ?_
  rw [List.length_drop, List.length_append]
  omega

theorem Leaf.Holds.opens {kind : Leaf} {v : List UInt8} (h : kind.Holds v) (rest : List UInt8) :
    kind.Opens (v ++ (kind.endTag ++ rest)) := by
  rintro rfl
  obtain ⟨hcomment, hcdata⟩ := h.2 rfl
  constructor
  · intro hpre
    exact hcomment (prefix_of_prefix_append_cons (by decide)
      (List.cons_prefix_cons.mp (List.cons_prefix_cons.mp hpre).2).2)
  · intro hpre
    exact hcdata (prefix_of_prefix_append_cons (by decide)
      (List.cons_prefix_cons.mp (List.cons_prefix_cons.mp hpre).2).2)

/-! ## Tags -/

/-- The text of an attribute. -/
def attributeText (a : List UInt8 × List UInt8) : List UInt8 :=
  32 :: (a.1 ++ ([61, 34] ++ (printString true false a.2 ++ [34])))

theorem attributes_printed {attributes : List (List UInt8 × List UInt8)}
    (h : ∀ a ∈ attributes, IsName a.1 ∧ Plain a.2) (rest : List UInt8) :
    Attributes {} (attributes.flatMap attributeText ++ rest) (escapedAttributes attributes)
      rest := by
  induction attributes with
  | nil => exact .nil rest
  | cons a attributes ih =>
    obtain ⟨⟨hname, hplain⟩, hrest⟩ := List.forall_mem_cons.mp h
    rw [List.flatMap_cons, List.append_assoc]
    have hattributes := ih hrest
    set more := attributes.flatMap attributeText ++ rest
    have hblank : Blank (attributeText a ++ more) ((attributeText a).tail ++ more) :=
      ⟨[32], List.forall_mem_singleton.mpr (by decide), rfl⟩
    refine .cons hblank ?_ hattributes
    refine ⟨a.1, 61 :: 34 :: (printString true false a.2 ++ 34 :: more), _, 34,
      printString true false a.2 ++ 34 :: more, _, ⟨?_, hname, ?_⟩, .refl _, .refl _, Or.inl rfl,
      upTo_singleton_iff.mpr ⟨rfl, (hplain.printString false).2.2⟩, rfl⟩
    · simp [attributeText]
    · intro b hb
      cases hb
      decide

theorem tag_printed {name : List UInt8} (hname : IsName name)
    {attributes : List (List UInt8 × List UInt8)}
    (hattr : ∀ a ∈ attributes, IsName a.1 ∧ Plain a.2) (hnodup : (attributes.map Prod.fst).Nodup)
    (sealed : Bool) (rest : List UInt8) :
    Tag {} (name ++ (attributes.flatMap attributeText ++ (closer sealed ++ rest))) false name
      (escapedAttributes attributes) sealed rest := by
  refine ⟨_, _, closer sealed ++ rest, .refl _, ⟨rfl, hname, ?_⟩, attributes_printed hattr _, ?_,
    .refl _⟩
  · -- a name is followed by a space, a `/` or a `>`
    intro b hb
    cases attributes with
    | nil => cases sealed <;> (cases hb; decide)
    | cons a attributes => cases hb; decide
  · rwa [escapedAttributes, List.map_map]

theorem closing_printed {name : List UInt8} (hname : IsName name) (rest : List UInt8) :
    Tag {} (47 :: (name ++ 62 :: rest)) true name [] false rest := by
  refine ⟨_, 62 :: rest, 62 :: rest, .refl _, ⟨rfl, hname, ?_⟩, .nil _, List.nodup_nil, .refl _⟩
  intro b hb
  cases hb
  decide

theorem IsName.zero_not_mem {name : List UInt8} (h : IsName name) : 0 ∉ name := by
  obtain ⟨b, s, rfl, hb, hs⟩ := h
  rintro hzero
  rcases List.mem_cons.mp hzero with rfl | hzero
  · exact absurd hb (by decide)
  · exact absurd (hs 0 hzero) (by decide)

theorem zero_not_mem_attributes {attributes : List (List UInt8 × List UInt8)}
    (h : ∀ a ∈ attributes, IsName a.1 ∧ Plain a.2) : 0 ∉ attributes.flatMap attributeText := by
  rw [List.mem_flatMap]
  rintro ⟨a, ha, hzero⟩
  obtain ⟨hname, hplain⟩ := h a ha
  simp [attributeText, hname.zero_not_mem, (hplain.printString false).1] at hzero

/-! ## Blank text in front of nodes -/

theorem Blank.trans {p q r : List UInt8} (h : Blank p q) (h' : Blank q r) : Blank p r := by
  obtain ⟨w, hw, rfl⟩ := h
  obtain ⟨w', hw', rfl⟩ := h'
  refine ⟨w ++ w', fun b hb => ?_, (List.append_assoc w w' r).symm⟩
  exact (List.mem_append.mp hb).elim (hw b) (hw' b)

theorem Content.of_blank {opts : XMLOptions} {q p p' : List UInt8} {nodes : XMLNodes StrPair}
    (h : Content opts p nodes p') (hblank : Blank q p) (hnil : nodes ≠ .nil)
    (htext : ¬ nodes.StartsWithText) : Content opts q nodes p' := by
  cases h with
  | nil => exact absurd rfl hnil
  | text => exact absurd rfl htext
  | leaf hkind hb hopens hvalue hnext => exact .leaf hkind (hblank.trans hb) hopens hvalue hnext
  | sealed hb htag hnext => exact .sealed (hblank.trans hb) htag hnext
  | element hb htag hchildren hb' hclose hnext =>
    exact .element (hblank.trans hb) htag hchildren hb' hclose hnext

namespace XMLPrinter

/-! ## The steps of the printer -/

/-- What is printed before anything else inside of an element. -/
def pending (s : XMLPrinter) : List UInt8 := if s.elementJustOpened then [62] else []

theorem sealElement_eq (s : XMLPrinter) :
    s.sealElement = { s with out := s.out ++ s.pending, elementJustOpened := false } := by
  rw [sealElement, pending]
  split_ifs with h
  · rfl
  · obtain ⟨out, opened, stack, first, depth, textDepth, process, compact⟩ := s
    rw [Bool.not_eq_true] at h
    obtain rfl : opened = false := h
    rw [List.append_nil]

/-- The white space in front of an element. -/
def lead (s : XMLPrinter) : List UInt8 :=
  (if s.breaks then [LF] else []) ++ (if s.compactMode then [] else space s.depth)

theorem openElement_eq (s : XMLPrinter) (name : List UInt8) :
    s.openElement name =
      { s with
        out := s.out ++ (s.pending ++ (s.lead ++ 60 :: name))
        elementJustOpened := true
        stack := name :: s.stack
        firstElement := false
        depth := s.depth + 1 } := by
  simp [openElement, sealElement_eq, print, breaks, lead]

theorem foldl_pushAttribute_eq (s : XMLPrinter) (hs : s.processEntities = true)
    (attributes : List (List UInt8 × List UInt8)) :
    attributes.foldl pushAttribute s =
      { s with out := s.out ++ attributes.flatMap attributeText } := by
  induction attributes generalizing s with
  | nil => simp
  | cons a attributes ih =>
    rw [List.foldl_cons, ih (s.pushAttribute a) hs]
    simp [pushAttribute, print, attributeText, hs]

/-- What closes an element. -/
def closing (s : XMLPrinter) (name : List UInt8) : List UInt8 :=
  if s.elementJustOpened then [47, 62]
  else (if s.textDepth < 0 ∧ !s.compactMode then LF :: space (s.depth - 1) else []) ++
    60 :: 47 :: (name ++ [62])

/-- The line break behind an element of the document. -/
def newline (s : XMLPrinter) : List UInt8 := if s.depth - 1 = 0 ∧ !s.compactMode then [LF] else []

theorem closeElement_eq (s : XMLPrinter) {name : List UInt8} {stack : List (List UInt8)}
    (hs : s.stack = name :: stack) :
    s.closeElement =
      { s with
        out := s.out ++ (s.closing name ++ s.newline)
        elementJustOpened := false
        stack := stack
        depth := s.depth - 1
        textDepth := if s.textDepth = s.depth - 1 then -1 else s.textDepth } := by
  rw [closeElement, closing, newline, hs]
  split_ifs <;> simp_all [print]

theorem pushText_eq (s : XMLPrinter) (hs : s.processEntities = true) (v : List UInt8) :
    s.visit .text v =
      { s with
        out := s.out ++ (s.pending ++ printString true true v)
        elementJustOpened := false
        textDepth := s.depth - 1 } := by
  simp [visit, pushText, sealElement_eq, print, pending, hs]

theorem space_blank {depth : ℤ} : ∀ b ∈ space depth, XMLUtil.isWhiteSpace b := by
  intro b hb
  rw [List.eq_of_mem_replicate hb]
  decide

/-- A leaf other than a text: it may stand in a line of its own. -/
theorem visit_spec (s : XMLPrinter) {kind : Leaf} (hkind : kind ≠ .text) (v : List UInt8) :
    ∃ w textDepth firstElement, (∀ b ∈ w, XMLUtil.isWhiteSpace b) ∧ (s.breaks = false → w = []) ∧
      s.visit kind v =
        { s with
          out := s.out ++ (s.pending ++ (w ++ (kind.header ++ (v ++ kind.endTag))))
          elementJustOpened := false
          textDepth := textDepth
          firstElement := firstElement } := by
  have hmarkup : ∃ w textDepth firstElement, (∀ b ∈ w, XMLUtil.isWhiteSpace b) ∧
      (s.breaks = false → w = []) ∧ s.pushMarkup kind v =
        { s with
          out := s.out ++ (s.pending ++ (w ++ (kind.header ++ (v ++ kind.endTag))))
          elementJustOpened := false
          textDepth := textDepth
          firstElement := firstElement } := by
    refine ⟨if s.breaks then LF :: space s.depth else [], s.textDepth, false, ?_, ?_, ?_⟩
    · split_ifs
      · exact List.forall_mem_cons.mpr ⟨by decide, space_blank⟩
      · simp
    · intro h
      rw [h]
      rfl
    · simp [pushMarkup, sealElement_eq, print, breaks]
  cases kind with
  | text => exact absurd rfl hkind
  | cdata =>
    refine ⟨[], s.depth - 1, s.firstElement, by simp, fun _ => rfl, ?_⟩
    simp [visit, pushText, sealElement_eq, print, pending]
  | comment => exact hmarkup
  | declaration => exact hmarkup
  | unknown => exact hmarkup

/-! ## The nodes -/

/-- A tag begins here, and goes on. -/
def StartsTag (p : List UInt8) : Prop := ∃ c p', p = 60 :: c :: p'

theorem StartsTag.append {p : List UInt8} (h : StartsTag p) (rest : List UInt8) :
    StartsTag (p ++ rest) := by
  obtain ⟨c, p', rfl⟩ := h
  exact ⟨c, p' ++ rest, rfl⟩

/-- What the printer does with a list of nodes: the text `t` stands for them, and `w` is the line
break behind the last element of a document. -/
structure Prints (s : XMLPrinter) (nodes : XMLNodes (List UInt8)) (t w : List UInt8) : Prop where
  out : (s.accept nodes).out = s.out ++ ((if nodes = .nil then [] else s.pending) ++ (t ++ w))
  opened : (s.accept nodes).elementJustOpened = (s.elementJustOpened && nodes = .nil)
  stack : (s.accept nodes).stack = s.stack
  depth : (s.accept nodes).depth = s.depth
  compact : (s.accept nodes).compactMode = s.compactMode
  process : (s.accept nodes).processEntities = true
  /-- A text at the end is remembered. -/
  textDepth : nodes.EndsInText → (s.accept nodes).textDepth = s.depth - 1
  nil : nodes = .nil → t = [] ∧ w = []
  blank : ∀ b ∈ w, XMLUtil.isWhiteSpace b
  inner : 0 < s.depth → w = []
  noZero : 0 ∉ t
  /-- Behind a text there is no white space that would become part of it. -/
  tight : nodes ≠ .nil → ¬ nodes.StartsWithText → s.breaks = false →
    (s.compactMode = true ∨ s.depth = 0 ∨ ¬ nodes.StartsWithElement) → StartsTag t
  content (rest : List UInt8) : (nodes.EndsInText → StartsTag rest) →
    Content {} (t ++ (w ++ rest)) nodes.escaped (w ++ rest)

theorem Prints.of_nil {s : XMLPrinter} (hs : s.processEntities = true) : Prints s .nil [] [] where
  out := by simp [accept]
  opened := by simp [accept]
  stack := rfl
  depth := rfl
  compact := rfl
  process := hs
  textDepth h := h.elim
  nil _ := ⟨rfl, rfl⟩
  blank := by simp
  inner _ := rfl
  noZero := by simp
  tight h := absurd rfl h
  content rest _ := .nil rest

theorem not_endsInText {nodes : XMLNodes (List UInt8)} (h : nodes.NoText) : ¬ nodes.EndsInText := by
  induction nodes with
  | nil => exact id
  | leaf kind v next ih => exact fun hends => hends.elim (fun htext => h.1 htext.1) (ih h.2)
  | element _ _ _ next _ ih => exact ih h

theorem zero_not_mem_of_blank {w : List UInt8} (h : ∀ b ∈ w, XMLUtil.isWhiteSpace b) : 0 ∉ w :=
  fun hzero => absurd (h 0 hzero) (by decide)

theorem startsWithText_escaped {nodes : XMLNodes (List UInt8)} :
    nodes.escaped.StartsWithText ↔ nodes.StartsWithText := by
  cases nodes <;> rfl

theorem escaped_eq_nil_iff {nodes : XMLNodes (List UInt8)} :
    nodes.escaped = .nil ↔ nodes = .nil := by
  cases nodes <;> simp [XMLNodes.escaped]

/-- What the printer does with the first of some nodes: it prints `a`, and maybe a line break `n`.
-/
structure PrintsFirst (s s₁ : XMLPrinter) (nodes next : XMLNodes (List UInt8)) (a n : List UInt8) :
    Prop where
  ne_nil : nodes ≠ .nil
  accept : s.accept nodes = s₁.accept next
  out : s₁.out = s.out ++ (s.pending ++ (a ++ n))
  opened : s₁.elementJustOpened = false
  stack : s₁.stack = s.stack
  depth : s₁.depth = s.depth
  compact : s₁.compactMode = s.compactMode
  process : s₁.processEntities = true
  ends : nodes.EndsInText ↔ (nodes.StartsWithText ∧ next = .nil) ∨ next.EndsInText
  textDepth : nodes.StartsWithText → s₁.textDepth = s.depth - 1
  blank : ∀ b ∈ n, XMLUtil.isWhiteSpace b
  inner : 0 < s.depth → n = []
  noZero : 0 ∉ a
  tight : ¬ nodes.StartsWithText → s.breaks = false →
    (s.compactMode = true ∨ s.depth = 0 ∨ ¬ nodes.StartsWithElement) → StartsTag a
  content {p p' : List UInt8} : (nodes.StartsWithText → StartsTag p) →
    Content {} p next.escaped p' → Content {} (a ++ p) nodes.escaped p'

/-- A node and those after it. -/
theorem PrintsFirst.prints {s s₁ : XMLPrinter} {nodes next : XMLNodes (List UInt8)}
    {a n t w : List UInt8} (hfirst : PrintsFirst s s₁ nodes next a n) (h : Prints s₁ next t w)
    (hline : n ≠ [] → ¬ next.StartsWithText)
    (hgap : nodes.StartsWithText → n = [] ∧ (next ≠ .nil → StartsTag t)) :
    ∃ t' w', Prints s nodes t' w' := by
  have hpending : s₁.pending = [] := by rw [pending, hfirst.opened]; rfl
  refine ⟨a ++ if next = .nil then [] else n ++ t, if next = .nil then n else w, ?_⟩
  refine
    { out := ?_, opened := ?_, stack := ?_, depth := ?_, compact := ?_, process := ?_,
      textDepth := ?_, nil := fun h => absurd h hfirst.ne_nil, blank := ?_, inner := ?_,
      noZero := ?_, tight := ?_, content := ?_ }
  · rw [hfirst.accept, h.out, hfirst.out, hpending, if_neg hfirst.ne_nil]
    split_ifs with hnext
    · obtain ⟨rfl, rfl⟩ := h.nil hnext
      simp
    · simp
  · rw [hfirst.accept, h.opened, hfirst.opened, Bool.false_and, decide_eq_false hfirst.ne_nil,
      Bool.and_false]
  · rw [hfirst.accept, h.stack, hfirst.stack]
  · rw [hfirst.accept, h.depth, hfirst.depth]
  · rw [hfirst.accept, h.compact, hfirst.compact]
  · rw [hfirst.accept, h.process]
  · intro htext
    rw [hfirst.accept]
    rcases hfirst.ends.mp htext with ⟨hstarts, rfl⟩ | hnext
    · exact hfirst.textDepth hstarts
    · rw [h.textDepth hnext, hfirst.depth]
  · split_ifs
    · exact hfirst.blank
    · exact h.blank
  · intro hpos
    split_ifs
    · exact hfirst.inner hpos
    · exact h.inner (hfirst.depth ▸ hpos)
  · have hn := zero_not_mem_of_blank hfirst.blank
    split_ifs
    · simpa using hfirst.noZero
    · simp [hfirst.noZero, hn, h.noZero]
  · intro _ htext hbreaks hlead
    exact (hfirst.tight htext hbreaks hlead).append _
  · intro rest hrest
    rw [List.append_assoc]
    refine hfirst.content ?_ ?_
    · intro htext
      obtain ⟨rfl, hne⟩ := hgap htext
      split_ifs with hnext
      · exact hrest (hfirst.ends.mpr (Or.inl ⟨htext, hnext⟩))
      · exact (hne hnext).append _
    · split_ifs with hnext
      · rw [hnext]
        exact .nil _
      · have hnodes := h.content rest fun htext => hrest (hfirst.ends.mpr (Or.inr htext))
        rw [List.append_assoc]
        by_cases hn : n = []
        · rwa [hn]
        · exact hnodes.of_blank ⟨n, hfirst.blank, rfl⟩ (fun h => hnext (escaped_eq_nil_iff.mp h))
            fun h => hline hn (startsWithText_escaped.mp h)

theorem printsFirst_text {s : XMLPrinter} {v : List UInt8} (next : XMLNodes (List UInt8))
    (hs : s.processEntities = true) (hplain : Plain v) (hv : ∃ b ∈ v, ¬ XMLUtil.isWhiteSpace b) :
    PrintsFirst s (s.visit .text v) (.leaf .text v next) next (printString true true v) [] := by
  rw [pushText_eq s hs]
  exact
    { ne_nil := by simp
      accept := by rw [XMLPrinter.accept, pushText_eq s hs]
      out := by simp
      opened := rfl
      stack := rfl
      depth := rfl
      compact := rfl
      process := hs
      ends := by simp [XMLNodes.EndsInText, XMLNodes.StartsWithText]
      textDepth := fun _ => rfl
      blank := by simp
      inner := fun _ => rfl
      noZero := (hplain.printString true).1
      tight := fun h => absurd rfl h
      content := fun htag hnext => by
        obtain ⟨c, p, rfl⟩ := htag rfl
        exact .text (hplain.printString_not_blank hv) (hplain.printString true).2.1
          (List.cons_ne_nil c p) hnext }

theorem header_startsTag {kind : Leaf} (hkind : kind ≠ .text) (p : List UInt8) :
    StartsTag (kind.header ++ p) := by
  cases kind with
  | text => exact absurd rfl hkind
  | cdata => exact ⟨33, _, rfl⟩
  | comment => exact ⟨33, _, rfl⟩
  | declaration => exact ⟨63, _, rfl⟩
  | unknown => exact ⟨33, _, rfl⟩

theorem printsFirst_leaf {s : XMLPrinter} {kind : Leaf} {v : List UInt8}
    (next : XMLNodes (List UInt8)) (hs : s.processEntities = true) (hkind : kind ≠ .text)
    (hplain : Plain v) (hv : kind.Holds v) :
    ∃ a, PrintsFirst s (s.visit kind v) (.leaf kind v next) next a [] := by
  obtain ⟨w, textDepth, firstElement, hw, htight, hvisit⟩ := visit_spec s hkind v
  refine ⟨w ++ (kind.header ++ (v ++ kind.endTag)), ?_⟩
  have hheader : 0 ∉ kind.header ∧ 0 ∉ kind.endTag := by cases kind <;> decide
  exact
    { ne_nil := by simp
      accept := by rw [XMLPrinter.accept]
      out := by simp [hvisit]
      opened := by rw [hvisit]
      stack := by rw [hvisit]
      depth := by rw [hvisit]
      compact := by rw [hvisit]
      process := by rw [hvisit]; exact hs
      ends := by simp [XMLNodes.EndsInText, XMLNodes.StartsWithText]
      textDepth := fun h => absurd h hkind
      blank := by simp
      inner := fun _ => rfl
      noZero := by simp [zero_not_mem_of_blank hw, hheader, hplain.1]
      tight := fun _ hbreaks _ => by
        rw [htight hbreaks, List.nil_append]
        exact header_startsTag hkind _
      content := fun {p p'} _ hnext => by
        have hblank : Blank (w ++ (kind.header ++ (v ++ kind.endTag)) ++ p)
            (kind.header ++ (v ++ (kind.endTag ++ p))) := ⟨w, hw, by simp⟩
        have hleaf := Content.leaf hkind hblank (hv.opens p) (hv.upTo p) hnext
        rwa [XMLNodes.escaped, if_neg hkind] }

theorem lead_blank (s : XMLPrinter) : ∀ b ∈ s.lead, XMLUtil.isWhiteSpace b := by
  intro b hb
  rcases List.mem_append.mp hb with hb | hb
  · split_ifs at hb
    · rw [List.mem_singleton.mp hb]
      decide
    · cases hb
  · split_ifs at hb
    · cases hb
    · exact space_blank b hb

theorem lead_eq_nil {s : XMLPrinter} (hbreaks : s.breaks = false)
    (h : s.compactMode = true ∨ s.depth = 0) : s.lead = [] := by
  rw [lead, hbreaks, if_neg Bool.false_ne_true, List.nil_append]
  rcases h with h | h
  · rw [h, if_pos rfl]
  · rw [h]
    split_ifs <;> rfl

/-- The state inside of an element, behind its attributes. -/
def inside (s : XMLPrinter) (name : List UInt8) (attributes : List (List UInt8 × List UInt8)) :
    XMLPrinter :=
  { s with
    out := s.out ++ (s.pending ++ (s.lead ++ 60 :: (name ++ attributes.flatMap attributeText)))
    elementJustOpened := true
    stack := name :: s.stack
    firstElement := false
    depth := s.depth + 1 }

theorem accept_element {s : XMLPrinter} (hs : s.processEntities = true) (name : List UInt8)
    (attributes : List (List UInt8 × List UInt8)) (firstChild next : XMLNodes (List UInt8)) :
    s.accept (.element name attributes firstChild next) =
      ((s.inside name attributes).accept firstChild).closeElement.accept next := by
  rw [accept, openElement_eq, foldl_pushAttribute_eq]
  · simp [inside]
  · exact hs

theorem closing_of_nil {s : XMLPrinter} {name t w : List UInt8}
    {attributes : List (List UInt8 × List UInt8)} {firstChild : XMLNodes (List UInt8)}
    (h : Prints (s.inside name attributes) firstChild t w) (hnil : firstChild = .nil) :
    ((s.inside name attributes).accept firstChild).closing name = closer true := by
  rw [closing, h.opened, decide_eq_true hnil]
  rfl

/-- What stands behind the children of an element: white space that is not part of a text, and the
closing tag. -/
theorem closing_of_children {s : XMLPrinter} {name t w : List UInt8}
    {attributes : List (List UInt8 × List UInt8)} {firstChild : XMLNodes (List UInt8)}
    (h : Prints (s.inside name attributes) firstChild t w) (hdepth : 0 ≤ s.depth)
    (hnil : firstChild ≠ .nil) :
    ∃ w', (∀ b ∈ w', XMLUtil.isWhiteSpace b) ∧ (firstChild.EndsInText → w' = []) ∧
      ((s.inside name attributes).accept firstChild).closing name =
        w' ++ 60 :: 47 :: (name ++ [62]) := by
  have hopened := h.opened
  rw [decide_eq_false hnil, Bool.and_false] at hopened
  refine ⟨_, ?_, ?_, by rw [closing, hopened, if_neg Bool.false_ne_true]⟩
  · split_ifs
    · exact List.forall_mem_cons.mpr ⟨by decide, space_blank⟩
    · simp
  · intro htext
    rw [if_neg]
    rw [h.textDepth htext]
    change ¬ (s.depth + 1 - 1 < 0 ∧ _)
    omega

theorem printsFirst_element {s : XMLPrinter} {name t w : List UInt8}
    {attributes : List (List UInt8 × List UInt8)} {firstChild : XMLNodes (List UInt8)}
    (next : XMLNodes (List UInt8)) (hs : s.processEntities = true) (hdepth : 0 ≤ s.depth)
    (hname : IsName name) (hattr : ∀ a ∈ attributes, IsName a.1 ∧ Plain a.2)
    (hnodup : (attributes.map Prod.fst).Nodup)
    (h : Prints (s.inside name attributes) firstChild t w) :
    ∃ a n, PrintsFirst s ((s.inside name attributes).accept firstChild).closeElement
      (.element name attributes firstChild next) next a n ∧ (n ≠ [] → s.depth = 0) := by
  set s₂ := (s.inside name attributes).accept firstChild with hs₂
  have hstack : s₂.stack = name :: s.stack := h.stack
  have hdepth₂ : s₂.depth - 1 = s.depth := by
    rw [h.depth]
    exact Int.add_sub_cancel s.depth 1
  have hclose := closeElement_eq s₂ hstack
  obtain rfl : w = [] := h.inner (by change 0 < s.depth + 1; omega)
  refine ⟨s.lead ++ 60 :: (name ++ (attributes.flatMap attributeText ++
    ((if firstChild = .nil then [] else [62]) ++ (t ++ s₂.closing name)))), s₂.newline,
    { ne_nil := by simp
      accept := accept_element hs name attributes firstChild next
      out := ?_
      opened := by rw [hclose]
      stack := by rw [hclose]
      depth := by rw [hclose]; exact hdepth₂
      compact := by rw [hclose]; exact h.compact
      process := by rw [hclose]; exact h.process
      ends := by simp [XMLNodes.EndsInText, XMLNodes.StartsWithText]
      textDepth := fun h => h.elim
      blank := ?_
      inner := ?_
      noZero := ?_
      tight := ?_
      content := ?_ }, ?_⟩
  · have hout : s₂.out = _ := h.out
    rw [hclose]
    dsimp only
    rw [hout]
    simp [inside, pending]
  · intro b hb
    rw [newline] at hb
    split_ifs at hb
    · rw [List.mem_singleton.mp hb]
      decide
    · cases hb
  · intro hpos
    rw [newline, hdepth₂, if_neg (by omega)]
  · have hclosing : 0 ∉ s₂.closing name := by
      by_cases hnil : firstChild = .nil
      · rw [closing_of_nil h hnil]
        decide
      · obtain ⟨w', hw', -, heq⟩ := closing_of_children h hdepth hnil
        rw [heq]
        simp [zero_not_mem_of_blank hw', hname.zero_not_mem]
    have hopen : 0 ∉ if firstChild = .nil then [] else [(62 : UInt8)] := by split_ifs <;> decide
    simp [zero_not_mem_of_blank s.lead_blank, hname.zero_not_mem, zero_not_mem_attributes hattr,
      hopen, h.noZero, hclosing]
  · intro _ hbreaks hlead
    have hlead' : s.compactMode = true ∨ s.depth = 0 := by
      rcases hlead with h | h | h
      · exact Or.inl h
      · exact Or.inr h
      · exact absurd trivial h
    obtain ⟨b, name', rfl, -⟩ := hname
    rw [lead_eq_nil hbreaks hlead']
    exact ⟨b, _, rfl⟩
  · intro p p' _ hnext
    have hblank : Blank (s.lead ++ 60 :: (name ++ (attributes.flatMap attributeText ++
        ((if firstChild = .nil then [] else [62]) ++ (t ++ s₂.closing name)))) ++ p)
        (60 :: (name ++ (attributes.flatMap attributeText ++
          ((if firstChild = .nil then [] else [62]) ++ (t ++ (s₂.closing name ++ p)))))) :=
      ⟨s.lead, s.lead_blank, by simp⟩
    by_cases hnil : firstChild = .nil
    · have hclosing := closing_of_nil h hnil
      rw [← hs₂] at hclosing
      obtain ⟨rfl, -⟩ := h.nil hnil
      rw [if_pos hnil, hclosing] at hblank
      rw [if_pos hnil, hclosing, hnil]
      exact .sealed hblank (tag_printed hname hattr hnodup true p) hnext
    · obtain ⟨w', hw', htext, heq⟩ := closing_of_children h hdepth hnil
      have hchildren := h.content (s₂.closing name ++ p) fun hends => by
        rw [heq, htext hends]
        exact ⟨47, _, rfl⟩
      rw [if_neg hnil] at hblank ⊢
      refine .element hblank (tag_printed hname hattr hnodup false _) hchildren ?_
        (closing_printed hname p) hnext
      exact ⟨w', hw', by rw [heq]; simp⟩
  · intro hline
    by_contra hne
    rw [newline, hdepth₂, if_neg fun h => hne h.1] at hline
    exact hline rfl

/-- **What is printed stands for the nodes.** -/
theorem exists_prints {s : XMLPrinter} {nodes : XMLNodes (List UInt8)}
    (hs : s.processEntities = true) (hdepth : 0 ≤ s.depth) (hnodes : nodes.Printable)
    (hspaced : s.compactMode = true ∨ nodes.Spaced) (htop : s.depth = 0 → nodes.NoText) :
    ∃ t w, Prints s nodes t w := by
  induction nodes generalizing s with
  | nil => exact ⟨[], [], .of_nil hs⟩
  | leaf kind v next ih =>
    obtain ⟨hplain, hnext, hvalue⟩ := hnodes
    have hspaced' : s.compactMode = true ∨ next.Spaced := hspaced.imp_right fun h => h.2
    by_cases hkind : kind = .text
    · subst hkind
      rw [if_pos rfl] at hvalue
      obtain ⟨hv, hstart⟩ := hvalue
      -- a text is never printed outside of an element
      have hpos : 0 < s.depth := lt_of_le_of_ne hdepth fun h => (htop h.symm).1 rfl
      have hfirst := printsFirst_text next hs hplain hv
      obtain ⟨t, w, h⟩ := ih hfirst.process (by rw [hfirst.depth]; exact hdepth) hnext
        (by rwa [hfirst.compact])
        fun h => absurd (hfirst.depth ▸ h) hpos.ne'
      refine hfirst.prints h (fun h => absurd rfl h) fun _ => ⟨rfl, fun hne => ?_⟩
      have htextDepth := hfirst.textDepth rfl
      refine h.tight hne hstart ?_ ?_
      · rw [breaks, htextDepth, decide_eq_false (by omega)]
        rfl
      · rw [hfirst.compact]
        exact hspaced.imp_right fun h => Or.inr (h.1 rfl)
    · rw [if_neg hkind] at hvalue
      obtain ⟨a, hfirst⟩ := printsFirst_leaf next hs hkind hplain hvalue
      obtain ⟨t, w, h⟩ := ih hfirst.process (by rw [hfirst.depth]; exact hdepth) hnext
        (by rwa [hfirst.compact])
        fun h => (htop (hfirst.depth ▸ h)).2
      exact hfirst.prints h (fun h => absurd rfl h) fun h => absurd h hkind
  | element name attributes firstChild next ihc ih =>
    obtain ⟨hname, hattr, hnodup, hchildren, hnext⟩ := hnodes
    obtain ⟨tc, wc, hc⟩ := ihc (s := s.inside name attributes) hs
      (by change 0 ≤ s.depth + 1; omega) hchildren (hspaced.imp_right fun h => h.1)
      fun h => by change s.depth + 1 = 0 at h; omega
    obtain ⟨a, n, hfirst, hn⟩ := printsFirst_element next hs hdepth hname hattr hnodup hc
    obtain ⟨t, w, h⟩ := ih hfirst.process (by rw [hfirst.depth]; exact hdepth) hnext
      (by rw [hfirst.compact]; exact hspaced.imp_right fun h => h.2)
      fun h => htop (hfirst.depth ▸ h)
    refine hfirst.prints h (fun hne => ?_) fun h => h.elim
    have hno : next.NoText := htop (hn hne)
    cases next with
    | nil => exact id
    | leaf kind v next => exact hno.1
    | element => exact id

end XMLPrinter

/-! ## Documents -/

open XMLPrinter

/-- A text behind a byte order mark or none, as it is parsed. -/
theorem parse_of_content {bom : Bool} {p p' : List UInt8} {nodes : XMLNodes StrPair}
    (hp : StartsTag p) (hzero : 0 ∉ p) (h : Content {} p nodes p') (hp' : Blank p' []) :
    XMLDocument.parse {} ((if bom then [0xef, 0xbb, 0xbf] else []) ++ p) = ⟨bom, nodes, none⟩ := by
  obtain ⟨c, q, rfl⟩ := hp
  have hstart : XMLUtil.readBOM (XMLUtil.skipWhiteSpace
      (((if bom then [0xef, 0xbb, 0xbf] else []) ++ 60 :: c :: q).takeWhile (· ≠ 0))) =
        (60 :: c :: q, bom) := by
    have htake : ((if bom then [0xef, 0xbb, 0xbf] else []) ++ 60 :: c :: q).takeWhile (· ≠ 0) =
        (if bom then [0xef, 0xbb, 0xbf] else []) ++ 60 :: c :: q := by
      rw [List.takeWhile_eq_self_iff]
      intro b hb
      refine decide_eq_true fun hb' => ?_
      rcases List.mem_append.mp hb with hb | hb
      · subst hb'
        cases bom <;> simp at hb
      · exact hzero (hb' ▸ hb)
    rw [htake]
    cases bom <;> rfl
  have hparse : XMLNode.parseDeep {} ((60 :: c :: q).length + 1) (60 :: c :: q) = ⟨nodes, .done⟩ :=
    (parseDeep_eq_iff fun f hf => by cases hf).mpr ⟨p', h, hp'⟩
  rw [XMLDocument.parse, hstart]
  dsimp only
  rw [if_neg (List.cons_ne_nil _ _), hparse]
  rfl

/-- A document is parsed as it was printed. -/
theorem parse_print {compact bom : Bool} {nodes : XMLNodes (List UInt8)} (hnodes : nodes.Printable)
    (hnil : nodes ≠ .nil) (htop : nodes.NoText) (hspaced : compact = true ∨ nodes.Spaced) :
    XMLDocument.parse {} (printDocument compact bom true nodes) = ⟨bom, nodes.escaped, none⟩ := by
  rw [printDocument]
  set s : XMLPrinter := print { processEntities := true, compactMode := compact } _ with hs
  obtain ⟨t, w, h⟩ := exists_prints (s := s) rfl (Int.le_refl 0) hnodes hspaced fun _ => htop
  have hstart : ¬ nodes.StartsWithText := by
    cases nodes with
    | nil => exact absurd rfl hnil
    | leaf kind v next => exact htop.1
    | element => exact id
  have htag : StartsTag t := h.tight hnil hstart rfl (Or.inr (Or.inl rfl))
  have hcontent := h.content [] fun hends => absurd hends (not_endsInText htop)
  have hzero : 0 ∉ t ++ (w ++ []) := by
    simp [h.noZero, zero_not_mem_of_blank h.blank]
  have hout : (s.accept nodes).out =
      (if bom then [0xef, 0xbb, 0xbf] else []) ++ (t ++ (w ++ [])) := by
    rw [h.out, if_neg hnil]
    simp [hs, print, pending]
  rw [hout]
  exact parse_of_content (htag.append _) hzero hcontent ⟨w, h.blank, rfl⟩

/-- **Round trip of a document.** A document that can be written, with a node and no text at the
top, is read back: the parser ends without an error, and the nodes and their values are those that
were printed, with line breaks or without. -/
theorem XMLDocument.parse_printDocument {compact bom : Bool} {nodes : XMLNodes (List UInt8)}
    (hnodes : nodes.Printable) (hnil : nodes ≠ .nil) (htop : nodes.NoText)
    (hspaced : compact = true ∨ nodes.Spaced) :
    let doc := parse {} (printDocument compact bom true nodes)
    doc.failure = none ∧ doc.writeBOM = bom ∧ doc.children.read = some nodes := by
  intro doc
  have hdoc : doc = ⟨bom, nodes.escaped, none⟩ := parse_print hnodes hnil htop hspaced
  rw [hdoc]
  exact ⟨rfl, rfl, XMLNodes.read_escaped hnodes⟩

/-- A comment, and an element `a` with an attribute whose value is a `"`, with an element `b` and a
text `<` behind it. -/
def oneElement : XMLNodes (List UInt8) :=
  .leaf .comment [99] (.element [97] [([107], [34])]
    (.element [98] [] .nil (.leaf .text [60] .nil)) .nil)

theorem oneElement_printable : oneElement.Printable := by
  have hname : ∀ b : UInt8, XMLUtil.isNameStartChar b → IsName [b] := fun b hb =>
    ⟨b, [], rfl, hb, by simp⟩
  refine ⟨by decide, ⟨hname 97 (by decide), ?_, by decide, ?_, trivial⟩, ?_⟩
  · intro a ha
    rw [List.mem_singleton.mp ha]
    exact ⟨hname 107 (by decide), by decide⟩
  · exact ⟨hname 98 (by decide), by simp, List.nodup_nil, trivial, by decide, trivial,
      ⟨60, by simp, by decide⟩, id⟩
  · exact ⟨by decide, fun h => by cases h⟩

theorem XMLDocument.parse_oneElement :
    (parse {} (printDocument false true true oneElement)).children.read = some oneElement :=
  (parse_printDocument oneElement_printable (fun h => by cases h) ⟨by decide, trivial⟩
    (Or.inr ⟨(fun h => by cases h), ⟨trivial, fun _ => id, trivial⟩, trivial⟩)).2.2

end PlutoServer.Tinyxml2
