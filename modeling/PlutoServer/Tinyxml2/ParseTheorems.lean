import PlutoServer.Tinyxml2.Grammar

/-!
# The parser accepts the grammar

`parseDeep_eq_iff` says that `XMLNode::ParseDeep` ends without an error on exactly the texts of the
grammar, with the nodes that the grammar gives. Its fuel is of no matter: the length of the text is
always enough (`parseDeep_of_length_lt`), and what is not `outOfFuel` stays the same with more.

For a whole document this is `parse_ok_iff`. The grammar is wider than that of XML: there may be
several elements at the top, and texts between them; no white space is needed between attributes; a
closing tag may have attributes, which are ignored; and `</a/>` is an element. What follows a
closing tag that has no opening one is not read at all.
-/

namespace PlutoServer.Tinyxml2

variable {opts : XMLOptions}

/-! ## Leaves -/

theorem upTo_singleton_iff {b : UInt8} {p str p' : List UInt8} :
    UpTo [b] p str p' ↔ p = str ++ b :: p' ∧ b ∉ str := by
  constructor
  · rintro ⟨rfl, hfirst⟩
    refine ⟨rfl, fun hb => ?_⟩
    obtain ⟨k, hk, rfl⟩ := List.getElem_of_mem hb
    refine hfirst k hk ?_
    rw [List.drop_append_of_le_length hk.le, List.drop_eq_getElem_cons hk]
    exact ⟨_, rfl⟩
  · rintro ⟨rfl, hb⟩
    refine ⟨rfl, fun k hk hpre => ?_⟩
    rw [List.drop_append_of_le_length hk.le, List.drop_eq_getElem_cons hk, List.cons_append,
      List.cons_prefix_cons] at hpre
    exact hb (hpre.1 ▸ List.getElem_mem hk)

theorem Leaf.endTag_ne_nil (kind : Leaf) : kind.endTag ≠ [] := by
  cases kind <;> decide

theorem leaf_parseDeep_iff {kind : Leaf} (hkind : kind ≠ .text) {p p' : List UInt8} {v : StrPair} :
    kind.parseDeep opts p = .ok (v, p') ↔
      ∃ str, v = ⟨str, kind.flags opts⟩ ∧ UpTo kind.endTag p str p' := by
  rw [Leaf.parseDeep]
  constructor
  · intro h
    split at h
    · cases h
    · rename_i str q hq
      rw [if_neg hkind] at h
      cases h
      exact ⟨str, rfl, (parseText_eq_some_iff kind.endTag_ne_nil).mp hq⟩
  · rintro ⟨str, rfl, hup⟩
    rw [(parseText_eq_some_iff kind.endTag_ne_nil).mpr hup]
    dsimp only
    rw [if_neg hkind]

theorem text_parseDeep_iff {p p' : List UInt8} {v : StrPair} :
    Leaf.text.parseDeep opts p = .ok (v, p') ↔
      ∃ str q, v = ⟨str, Leaf.text.flags opts⟩ ∧ 60 ∉ str ∧ q ≠ [] ∧ p = str ++ 60 :: q ∧
        p' = 60 :: q := by
  rw [Leaf.parseDeep]
  constructor
  · intro h
    split at h
    · cases h
    · rename_i str q hq
      rw [if_pos rfl] at h
      split_ifs at h with hnil
      cases h
      obtain ⟨rfl, hlt⟩ :=
        upTo_singleton_iff.mp ((parseText_eq_some_iff Leaf.text.endTag_ne_nil).mp hq)
      exact ⟨str, q, rfl, hlt, hnil, rfl, rfl⟩
  · rintro ⟨str, q, rfl, hlt, hnil, rfl, rfl⟩
    rw [(parseText_eq_some_iff Leaf.text.endTag_ne_nil).mpr (upTo_singleton_iff.mpr ⟨rfl, hlt⟩)]
    dsimp only
    rw [if_pos rfl, if_neg hnil]

/-! ## What ends well is in the grammar -/

/-- What is left when the loop ends: white space, or a closing tag. -/
def Ends (opts : XMLOptions) : Outcome → List UInt8 → Prop
  | .done, p => Blank p []
  | .closed endTag rest, p =>
    ∃ p₁ ignored, Blank p (60 :: p₁) ∧ Tag opts p₁ true endTag ignored false rest
  | .failed _, _ => False

/-- The text stands for these nodes, and ends like this. -/
def Accepted (opts : XMLOptions) (p : List UInt8) (r : Parsed) : Prop :=
  ∃ p', Content opts p r.children p' ∧ Ends opts r.outcome p'

theorem closingTypeOf_eq_closing_iff {slash sealed : Bool} :
    closingTypeOf slash sealed = .closing ↔ slash = true ∧ sealed = false := by
  cases slash <;> cases sealed <;> decide

theorem closingTypeOf_eq_open_iff {slash sealed : Bool} :
    closingTypeOf slash sealed = .open ↔ slash = false ∧ sealed = false := by
  cases slash <;> cases sealed <;> decide

theorem closingTypeOf_eq_closed_iff {slash sealed : Bool} :
    closingTypeOf slash sealed = .closed ↔ sealed = true := by
  cases slash <;> cases sealed <;> decide

/-- A leaf that is identified and read, with the nodes behind it. -/
theorem content_leaf {kind : Leaf} {p q p₁ p' : List UInt8} {v : StrPair} {next : XMLNodes StrPair}
    (hleaf : XMLDocument.identify p = some (.leaf kind, q))
    (hv : kind.parseDeep opts q = .ok (v, p₁)) (hnext : Content opts p₁ next p') :
    Content opts p (.leaf kind v next) p' := by
  rcases identify_spec hleaf with
    ⟨htype, rfl, b, t, hskip, hb⟩ | ⟨kind', hkind, htype, hblank, hopens⟩ | ⟨htype, -⟩
  · cases htype
    obtain ⟨str, q₁, rfl, hlt, hnil, rfl, rfl⟩ := text_parseDeep_iff.mp hv
    refine .text ?_ hlt hnil hnext
    -- otherwise the `<` is the first byte that is not white space
    by_contra hwhite
    rw [not_exists] at hwhite
    have hall : ∀ c ∈ str, XMLUtil.isWhiteSpace c := fun c hc =>
      not_not.mp fun hn => hwhite c ⟨hc, hn⟩
    rw [XMLUtil.skipWhiteSpace, List.dropWhile_append_of_pos hall,
      List.dropWhile_cons_of_neg (by decide)] at hskip
    exact hb (List.cons.inj hskip).1.symm
  · cases htype
    obtain ⟨str, rfl, hup⟩ := (leaf_parseDeep_iff hkind).mp hv
    exact .leaf hkind hblank hopens hup hnext
  · cases htype

theorem blank_of_identify {p q : List UInt8} (h : XMLDocument.identify p = some (.element, q)) :
    Blank p (60 :: q) := by
  rcases identify_spec h with ⟨htype, -⟩ | ⟨_, -, htype, -⟩ | ⟨-, hblank⟩
  · cases htype
  · cases htype
  · exact hblank

/-- One turn: if what is read further on is accepted, then so is the whole. -/
theorem accepted_parseNode {again : List UInt8 → Parsed}
    (hagain : ∀ p, (∀ f, (again p).outcome ≠ .failed f) → Accepted opts p (again p))
    {p : List UInt8} (hok : ∀ f, (XMLNode.parseNode opts again p).outcome ≠ .failed f) :
    Accepted opts p (XMLNode.parseNode opts again p) := by
  rw [XMLNode.parseNode] at hok ⊢
  split at hok
  · rename_i hnone
    exact ⟨p, .nil p, identify_eq_none_iff.mp hnone⟩
  · rename_i kind q hleaf
    split at hok
    · exact absurd rfl (hok _)
    · rename_i v q' hv
      obtain ⟨p', hnext, hends⟩ := hagain q' hok
      exact ⟨p', content_leaf hleaf hv hnext, hends⟩
  · rename_i q helem
    have hblank := blank_of_identify helem
    split at hok
    · exact absurd rfl (hok _)
    · rename_i tag htag
      obtain ⟨slash, sealed, hspec, hclosing⟩ := parseTag_eq_ok_iff.mp htag
      split at hok
      · rename_i htype
        rw [htype] at hclosing
        obtain ⟨rfl, rfl⟩ := closingTypeOf_eq_closing_iff.mp hclosing.symm
        exact ⟨p, .nil p, q, tag.attributes, hblank, hspec⟩
      · rename_i htype
        rw [htype] at hclosing
        obtain rfl := closingTypeOf_eq_closed_iff.mp hclosing.symm
        obtain ⟨p', hnext, hends⟩ := hagain tag.rest hok
        exact ⟨p', .sealed hblank hspec hnext, hends⟩
      · rename_i htype
        rw [htype] at hclosing
        obtain ⟨rfl, rfl⟩ := closingTypeOf_eq_open_iff.mp hclosing.symm
        split_ifs at hok with hnil
        · exact absurd rfl (hok _)
        · rw [if_neg hnil]
          dsimp only at hok ⊢
          split at hok
          · exact absurd rfl (hok _)
          · exact absurd rfl (hok _)
          · rename_i endTag p₁ hinner
            split_ifs at hok ⊢ with hname
            · obtain ⟨p₂, hchildren, p₃, ignored, hblank', hclose⟩ :
                  Accepted opts tag.rest ⟨(again tag.rest).children, .closed endTag p₁⟩ := by
                have hacc := hagain tag.rest fun f hf => by rw [hinner] at hf; cases hf
                rwa [Accepted, hinner] at hacc
              obtain ⟨p', hnext, hends⟩ := hagain p₁ hok
              exact ⟨p', .element hblank hspec hchildren hblank' (hname ▸ hclose) hnext, hends⟩
            · exact absurd rfl (hok _)

theorem accepted_parseDeep {fuel : ℕ} {p : List UInt8}
    (hok : ∀ f, (XMLNode.parseDeep opts fuel p).outcome ≠ .failed f) :
    Accepted opts p (XMLNode.parseDeep opts fuel p) := by
  induction fuel generalizing p with
  | zero => exact absurd rfl (hok .outOfFuel)
  | succ fuel ih => exact accepted_parseNode (fun _ => ih) hok

/-! ## Fuel -/

/-- The model ran out of fuel. -/
def Parsed.OutOfFuel (r : Parsed) : Prop := r.outcome = .failed .outOfFuel

/-- A turn that does not run out of fuel only uses what does not. -/
theorem parseNode_congr {again again' : List UInt8 → Parsed}
    (hagain : ∀ p, ¬ (again p).OutOfFuel → again' p = again p) {p : List UInt8}
    (hok : ¬ (XMLNode.parseNode opts again p).OutOfFuel) :
    XMLNode.parseNode opts again' p = XMLNode.parseNode opts again p := by
  unfold XMLNode.parseNode at hok ⊢
  split
  · rfl
  · rename_i kind q hleaf
    split
    · rfl
    · rename_i v q' hv
      simp only [hleaf, hv] at hok
      rw [hagain q' hok]
  · rename_i q helem
    split
    · rfl
    · rename_i tag htag
      simp only [helem, htag] at hok
      split
      · rfl
      · rename_i htype
        simp only [htype] at hok
        rw [hagain tag.rest hok]
      · rename_i htype
        simp only [htype] at hok
        split_ifs with hnil
        · rfl
        · rw [if_neg hnil] at hok
          have hinner : ¬ (again tag.rest).OutOfFuel := by
            intro hout
            rw [show (again tag.rest).outcome = _ from hout] at hok
            exact hok rfl
          rw [hagain tag.rest hinner]
          cases hclosed : (again tag.rest).outcome with
          | done => simp only [hclosed]
          | failed f => simp only [hclosed]
          | closed endTag q' =>
            simp only [hclosed] at hok ⊢
            split_ifs at hok ⊢ with hname
            · rw [hagain q' hok]
            · rfl

theorem fuelled_parseDeep (opts : XMLOptions) (p : List UInt8) :
    Fuelled Parsed.OutOfFuel fun fuel => XMLNode.parseDeep opts fuel p := by
  intro n
  induction n generalizing p with
  | zero => exact fun hok => absurd rfl hok
  | succ n ih => exact fun hok => parseNode_congr ih hok

/-- The nodes of a text take up room in it. -/
theorem Content.length_le {p p' : List UInt8} {nodes : XMLNodes StrPair}
    (h : Content opts p nodes p') : p'.length + (if nodes = .nil then 0 else 1) ≤ p.length := by
  induction h with
  | nil p => simp
  | text hstr _ _ _ ih =>
    obtain ⟨b, hb, -⟩ := hstr
    have hpos := List.length_pos_of_mem hb
    simp only [reduceCtorEq, if_false, List.length_append]
    omega
  | @leaf p p₁ str p₂ p' kind next hkind hblank _ hvalue _ ih =>
    have h₁ := hblank.length_le
    have h₂ := hvalue.length_lt kind.endTag_ne_nil
    rw [List.length_append] at h₁
    simp only [reduceCtorEq, if_false]
    omega
  | sealed hblank htag _ ih =>
    have h₁ := hblank.length_le
    have h₂ := htag.length_lt
    rw [List.length_cons] at h₁
    simp only [reduceCtorEq, if_false]
    omega
  | element hblank htag _ hblank' hclose _ ihc ih =>
    have h₁ := hblank.length_le
    have h₂ := htag.length_lt
    have h₃ := hblank'.length_le
    have h₄ := hclose.length_lt
    rw [List.length_cons] at h₁ h₃
    simp only [reduceCtorEq, if_false]
    omega

/-- A closing tag that is handed to the caller has been read. -/
theorem Accepted.length_lt {p endTag rest : List UInt8} {r : Parsed} (h : Accepted opts p r)
    (hr : r.outcome = .closed endTag rest) : rest.length < p.length := by
  obtain ⟨p', hcontent, hends⟩ := h
  rw [hr] at hends
  obtain ⟨p₁, ignored, hblank, htag⟩ := hends
  have h₁ := hcontent.length_le
  have h₂ := hblank.length_le
  have h₃ := htag.length_lt
  rw [List.length_cons] at h₂
  omega

theorem parseAttributes_ne_outOfFuel {fuel : ℕ} {acc : List (List UInt8 × StrPair)} {p : List UInt8}
    (hfuel : p.length < fuel) :
    XMLElement.parseAttributes opts fuel acc p ≠ .error .outOfFuel := by
  induction fuel generalizing acc p with
  | zero => exact absurd hfuel (Nat.not_lt_zero _)
  | succ fuel ih =>
    have hle := (blank_skipWhiteSpace p).length_le
    rw [XMLElement.parseAttributes]
    split
    · exact fun h => by cases h
    · rename_i b q hskip
      rw [hskip] at hle
      split_ifs
      · split
        · exact fun h => by cases h
        · rename_i a q' ha
          have hlt := (attribute_parseDeep_iff.mp ha).length_lt
          split
          · split
            · exact fun h => by cases h
            · exact fun h => by cases h
          · exact ih (by omega)
      · exact fun h => by cases h
      · exact fun h => by cases h
      · exact fun h => by cases h

theorem parseTag_ne_outOfFuel (p : List UInt8) :
    XMLElement.parseTag opts p ≠ .error .outOfFuel := by
  rw [XMLElement.parseTag]
  split
  · exact fun h => by cases h
  · rename_i name q hname
    split
    · rename_i f hf
      rintro h
      cases h
      exact parseAttributes_ne_outOfFuel (Nat.lt_succ_self q.length) hf
    · exact fun h => by cases h

/-- The length of the text is enough. -/
theorem parseDeep_of_length_lt {fuel : ℕ} {p : List UInt8} (hfuel : p.length < fuel) :
    ¬ (XMLNode.parseDeep opts fuel p).OutOfFuel := by
  induction fuel generalizing p with
  | zero => exact absurd hfuel (Nat.not_lt_zero _)
  | succ fuel ih =>
    rw [XMLNode.parseDeep, XMLNode.parseNode]
    split
    · exact fun h => by cases h
    · rename_i kind q hleaf
      split
      · exact fun h => by cases h
      · rename_i v q' hv
        have hlt := (content_leaf hleaf hv (.nil q')).length_le
        rw [if_neg (by simp)] at hlt
        exact ih (p := q') (by omega)
    · rename_i q helem
      have hle := (blank_of_identify helem).length_le
      rw [List.length_cons] at hle
      split
      · rename_i f hf
        rintro h
        cases h
        exact parseTag_ne_outOfFuel q hf
      · rename_i tag htag
        obtain ⟨slash, sealed, hspec, -⟩ := parseTag_eq_ok_iff.mp htag
        have hlt := hspec.length_lt
        have hinner := ih (p := tag.rest) (by omega)
        split
        · exact fun h => by cases h
        · exact hinner
        · split_ifs
          · exact fun h => by cases h
          · cases hclosed : (XMLNode.parseDeep opts fuel tag.rest).outcome with
            | done => simp [hclosed, Parsed.OutOfFuel]
            | failed f =>
              simp only [hclosed]
              exact fun h => hinner (hclosed.trans h)
            | closed endTag q' =>
              have hacc : Accepted opts tag.rest (XMLNode.parseDeep opts fuel tag.rest) :=
                accepted_parseDeep fun f hf => by rw [hclosed] at hf; cases hf
              have hlt' := hacc.length_lt hclosed
              simp only [hclosed]
              split_ifs
              · exact ih (p := q') (by omega)
              · exact fun h => by cases h

/-! ## What is in the grammar is accepted -/

/-- The nodes of one list and then those of another. -/
def XMLNodes.append {σ : Type} : XMLNodes σ → XMLNodes σ → XMLNodes σ
  | .nil, more => more
  | .leaf kind value next, more => .leaf kind value (next.append more)
  | .element name attributes firstChild next, more =>
    .element name attributes firstChild (next.append more)

@[simp] theorem XMLNodes.append_nil {σ : Type} (nodes : XMLNodes σ) :
    nodes.append .nil = nodes := by
  induction nodes with
  | nil => rfl
  | leaf kind value next ih => rw [append, ih]
  | element name attributes firstChild next _ ih => rw [append, ih]

/-- With enough fuel the text is read as `r`. -/
def Parses (opts : XMLOptions) (p : List UInt8) (r : Parsed) : Prop :=
  ¬ r.OutOfFuel ∧ ∃ n, ∀ m ≥ n, XMLNode.parseDeep opts m p = r

theorem parses_of_parseDeep_eq {n : ℕ} {p : List UInt8} {r : Parsed}
    (h : XMLNode.parseDeep opts n p = r) (hr : ¬ r.OutOfFuel) : Parses opts p r :=
  ⟨hr, n, fun m hm => ((fuelled_parseDeep opts p).eq_of_le hm (by rwa [h])).trans h⟩

theorem Parses.parseDeep_eq {p : List UInt8} {r : Parsed} (h : Parses opts p r) {fuel : ℕ}
    (hfuel : p.length < fuel) : XMLNode.parseDeep opts fuel p = r := by
  obtain ⟨hr, n, hn⟩ := h
  have hfuel' : ¬ (XMLNode.parseDeep opts fuel p).OutOfFuel := parseDeep_of_length_lt hfuel
  have hn' : ¬ (XMLNode.parseDeep opts n p).OutOfFuel := by rwa [hn n (Nat.le_refl n)]
  exact ((fuelled_parseDeep opts p).unique hfuel' hn').trans (hn n (Nat.le_refl n))

/-- A turn, from what is read further on. -/
theorem parses_of_parseNode {p : List UInt8} {r : Parsed} (hr : ¬ r.OutOfFuel) (n : ℕ)
    (h : ∀ m ≥ n, XMLNode.parseNode opts (XMLNode.parseDeep opts m) p = r) : Parses opts p r :=
  parses_of_parseDeep_eq (n := n + 1) (h n (Nat.le_refl n)) hr

theorem parses_of_ends {o : Outcome} {p : List UInt8} (h : Ends opts o p) :
    Parses opts p ⟨.nil, o⟩ := by
  cases o with
  | done =>
    refine parses_of_parseNode (fun h => by cases h) 0 fun m _ => ?_
    rw [XMLNode.parseNode, identify_eq_none_iff.mpr h]
  | closed endTag rest =>
    obtain ⟨p₁, ignored, hblank, htag⟩ := h
    have hparse : XMLElement.parseTag opts p₁ = .ok ⟨endTag, ignored, .closing, rest⟩ :=
      parseTag_eq_ok_iff.mpr ⟨true, false, htag, rfl⟩
    refine parses_of_parseNode (fun h => by cases h) 0 fun m _ => ?_
    simp only [XMLNode.parseNode, identify_element hblank htag.head_ne, hparse]
  | failed f => exact h.elim

theorem parses_leaf {kind : Leaf} {p q p₁ : List UInt8} {v : StrPair} {r : Parsed}
    (hleaf : XMLDocument.identify p = some (.leaf kind, q))
    (hv : kind.parseDeep opts q = .ok (v, p₁)) (hr : Parses opts p₁ r) :
    Parses opts p ⟨.leaf kind v r.children, r.outcome⟩ := by
  obtain ⟨hout, n, hn⟩ := hr
  refine parses_of_parseNode hout n fun m hm => ?_
  simp only [XMLNode.parseNode, hleaf, hv, hn m hm]

/-- The parser reads the nodes of the grammar, and then goes on with the rest. -/
theorem Content.parses {p p' : List UInt8} {nodes : XMLNodes StrPair}
    (h : Content opts p nodes p') {r : Parsed} (hr : Parses opts p' r) :
    Parses opts p ⟨nodes.append r.children, r.outcome⟩ := by
  induction h generalizing r with
  | nil p => exact hr
  | text hstr hlt hp₁ _ ih =>
    exact parses_leaf (identify_text hstr hlt)
      (text_parseDeep_iff.mpr ⟨_, _, rfl, hlt, hp₁, rfl, rfl⟩) (ih hr)
  | leaf hkind hblank hopens hvalue _ ih =>
    exact parses_leaf (identify_leaf hkind hblank hopens)
      ((leaf_parseDeep_iff hkind).mpr ⟨_, rfl, hvalue⟩) (ih hr)
  | @sealed p p₁ name p₂ p' slash attributes next hblank htag _ ih =>
    obtain ⟨hout, n, hn⟩ := ih hr
    have hparse : XMLElement.parseTag opts p₁ = .ok ⟨name, attributes, .closed, p₂⟩ :=
      parseTag_eq_ok_iff.mpr ⟨slash, true, htag, rfl⟩
    refine parses_of_parseNode hout n fun m hm => ?_
    simp only [XMLNode.parseNode, identify_element hblank htag.head_ne, hparse, hn m hm]
    rfl
  | @element p p₁ name p₂ p₃ p₄ p₅ p' attributes ignored firstChild next hblank htag hchildren
      hblank' hclose _ ihc ih =>
    have hends : Ends opts (.closed name p₅) p₃ := ⟨p₄, ignored, hblank', hclose⟩
    obtain ⟨-, n₁, hn₁⟩ := ihc (parses_of_ends hends)
    obtain ⟨hout, n₂, hn₂⟩ := ih hr
    have hparse : XMLElement.parseTag opts p₁ = .ok ⟨name, attributes, .open, p₂⟩ :=
      parseTag_eq_ok_iff.mpr ⟨false, false, htag, rfl⟩
    -- the closing tag is still to come
    have hne : p₂ ≠ [] := by
      have h₁ := hchildren.length_le
      have h₂ := hblank'.length_le
      rw [List.length_cons] at h₂
      exact List.ne_nil_of_length_pos (by omega)
    refine parses_of_parseNode hout (max n₁ n₂) fun m hm => ?_
    simp only [XMLNode.parseNode, identify_element hblank htag.head_ne, hparse, if_neg hne,
      hn₁ m (Nat.le_trans (Nat.le_max_left ..) hm), hn₂ m (Nat.le_trans (Nat.le_max_right ..) hm),
      if_true, XMLNodes.append_nil]
    rfl

/-- **The content of a node.** The loop ends without an error, with these nodes and in this way, if
and only if the grammar says so. -/
theorem parseDeep_eq_iff {p : List UInt8} {r : Parsed} (hr : ∀ f, r.outcome ≠ .failed f) :
    XMLNode.parseDeep opts (p.length + 1) p = r ↔ Accepted opts p r := by
  constructor
  · rintro rfl
    exact accepted_parseDeep hr
  · rintro ⟨p', hcontent, hends⟩
    have hparses := hcontent.parses (parses_of_ends hends)
    rw [XMLNodes.append_nil] at hparses
    exact hparses.parseDeep_eq (Nat.lt_succ_self p.length)

/-! ## Documents -/

/-- The text of a document behind white space and a byte order mark, up to the first zero. -/
def documentText (bytes : List UInt8) : List UInt8 :=
  (XMLUtil.readBOM (XMLUtil.skipWhiteSpace (bytes.takeWhile (· ≠ 0)))).1

/-- What the text of a document stands for if it is parsed without an error. -/
theorem content_of_parse {bytes : List UInt8}
    (hok : (XMLDocument.parse opts bytes).failure = none) :
    documentText bytes ≠ [] ∧
      ∃ p', Content opts (documentText bytes) (XMLDocument.parse opts bytes).children p' ∧
        (Blank p' [] ∨ ∃ name rest, Ends opts (.closed name rest) p') := by
  rw [XMLDocument.parse, ← documentText] at hok ⊢
  by_cases hnil : documentText bytes = []
  · rw [if_pos hnil] at hok
    cases hok
  rw [if_neg hnil] at hok ⊢
  dsimp only at hok ⊢
  set r := XMLNode.parseDeep opts ((documentText bytes).length + 1) (documentText bytes) with hr
  have hok' : ∀ f, r.outcome ≠ .failed f := fun f hf => by rw [hf] at hok; cases hok
  obtain ⟨p', hcontent, hends⟩ := (parseDeep_eq_iff hok').mp hr.symm
  refine ⟨hnil, p', hcontent, ?_⟩
  cases ho : r.outcome with
  | done => exact Or.inl (by rwa [ho] at hends)
  | closed name rest => exact Or.inr ⟨name, rest, by rwa [ho] at hends⟩
  | failed f => exact absurd ho (hok' f)

/-- **What is accepted.** A document is parsed without an error, as these nodes, if and only if its
text is not empty and stands for the nodes in the grammar, up to its end or up to a closing tag that
has no opening one. -/
theorem XMLDocument.parse_ok_iff (opts : XMLOptions) (bytes : List UInt8)
    (nodes : XMLNodes StrPair) :
    ((parse opts bytes).failure = none ∧ (parse opts bytes).children = nodes) ↔
      documentText bytes ≠ [] ∧ ∃ p', Content opts (documentText bytes) nodes p' ∧
        (Blank p' [] ∨ ∃ name rest, Ends opts (.closed name rest) p') := by
  constructor
  · rintro ⟨hok, rfl⟩
    exact content_of_parse hok
  · rintro ⟨hnil, p', hcontent, hends⟩
    obtain ⟨o, ho, hends⟩ : ∃ o : Outcome, (∀ f, o ≠ .failed f) ∧ Ends opts o p' := by
      rcases hends with hblank | ⟨name, rest, hends⟩
      · exact ⟨.done, (fun f hf => by cases hf), hblank⟩
      · exact ⟨.closed name rest, (fun f hf => by cases hf), hends⟩
    have heq := (parseDeep_eq_iff (r := ⟨nodes, o⟩) ho).mpr ⟨p', hcontent, hends⟩
    rw [parse, ← documentText, if_neg hnil]
    dsimp only
    rw [heq]
    cases o with
    | done => exact ⟨rfl, rfl⟩
    | closed name rest => exact ⟨rfl, rfl⟩
    | failed f => exact absurd rfl (ho f)

end PlutoServer.Tinyxml2
