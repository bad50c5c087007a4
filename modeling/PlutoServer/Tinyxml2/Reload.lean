import PlutoServer.Tinyxml2.PrintTheorems

/-!
# Load, save and load again

A file that was loaded can be saved and loaded again with the same nodes (`parse_saved`), as long as
no text or attribute value was written with references to characters that the printer does not
escape (`Stable`): it escapes neither a CR, which is read back as an LF, nor the white space of a
blank text, which is not read back at all. Line ends of any kind in the file are of no matter.

As in `PrintTheorems`, the document has a node and no text at the top, and with line breaks no
element follows a text at once: the text of `<a>t<b/></a>` would come back with the spaces in front
of the `<b/>`.
-/

namespace PlutoServer.Tinyxml2

/-! ## Line ends -/

namespace StrPair

/-- A turn without entities: a line end, or a byte. -/
theorem turn_comment (b : UInt8) (p : List UInt8) :
    (∃ n, 0 < n ∧ n ≤ p.length + 1 ∧ turn .COMMENT (b :: p) = some (.write n [LF])) ∨
      b ≠ CR ∧ turn .COMMENT (b :: p) = some (.write 1 [b]) := by
  have htwo : ∀ c, p.head? = some c → 2 ≤ p.length + 1 := by
    intro c hc
    cases p with
    | nil => cases hc
    | cons => simp
  rw [turn]
  by_cases hcr : b = CR
  · rw [if_pos ⟨rfl, hcr⟩]
    left
    split_ifs with hp
    · exact ⟨2, by decide, htwo _ hp, rfl⟩
    · exact ⟨1, by decide, by simp, rfl⟩
  rw [if_neg fun h => hcr h.2]
  by_cases hlf : b = LF
  · rw [if_pos ⟨rfl, hlf⟩]
    left
    split_ifs with hp
    · exact ⟨2, by decide, htwo _ hp, rfl⟩
    · exact ⟨1, by decide, by simp, rfl⟩
  · rw [if_neg fun h => hlf h.2, if_neg (by simp [StrFlags.COMMENT])]
    exact Or.inr ⟨hcr, rfl⟩

theorem exists_reads (s : List UInt8) : ∃ v, Reads .COMMENT s v := by
  induction hn : s.length using Nat.strong_induction_on generalizing s with
  | _ n ih =>
    cases s with
    | nil => exact ⟨[], .nil⟩
    | cons b p =>
      obtain ⟨k, v, hpos, hle, hturn⟩ : ∃ k v, 0 < k ∧ k ≤ p.length + 1 ∧
          turn .COMMENT (b :: p) = some (.write k v) := by
        rcases turn_comment b p with ⟨k, hpos, hle, hturn⟩ | ⟨-, hturn⟩
        · exact ⟨k, [LF], hpos, hle, hturn⟩
        · exact ⟨1, [b], by decide, by simp, hturn⟩
      have hlen : ((b :: p).take k).length = k := by
        rw [List.length_take, List.length_cons]
        omega
      obtain ⟨v', hv'⟩ := ih ((b :: p).drop k).length
        (by rw [List.length_drop, ← hn, List.length_cons]; omega) _ rfl
      have hwrite : Reads .COMMENT ((b :: p).take k ++ (b :: p).drop k) (v ++ v') := by
        refine .write (List.ne_nil_of_length_pos (by omega)) ?_ hv'
        rw [List.take_append_drop, hlen, hturn]
      rw [List.take_append_drop] at hwrite
      exact ⟨v ++ v', hwrite⟩

/-- What a turn reads and writes. -/
theorem write_comment {t s v : List UInt8} (ht : t ≠ [])
    (h : turn .COMMENT (t ++ s) = some (.write t.length v)) :
    v = [LF] ∨ ∃ b, t = [b] ∧ v = [b] ∧ b ≠ CR := by
  obtain ⟨b, t, rfl⟩ := List.exists_cons_of_ne_nil ht
  rcases turn_comment b (t ++ s) with ⟨n, -, -, hturn⟩ | ⟨hcr, hturn⟩
  · rw [List.cons_append, hturn] at h
    cases h
    exact Or.inl rfl
  · rw [List.cons_append, hturn] at h
    injection h with h
    injection h with hlen hv
    obtain rfl : t = [] := List.length_eq_zero_iff.mp (by simpa using hlen.symm)
    exact Or.inr ⟨b, rfl, hv.symm, hcr⟩

/-- The value has no CR, and no zero if the string has none. -/
theorem Reads.plain {s v : List UInt8} (h : Reads .COMMENT s v) (hzero : 0 ∉ s) : Plain v := by
  induction h with
  | nil => exact ⟨by simp, by simp⟩
  | @write t v s v' ht hturn _ ih =>
    rw [List.mem_append, not_or] at hzero
    obtain ⟨hzero', hcr'⟩ := ih hzero.2
    rcases write_comment ht hturn with rfl | ⟨b, rfl, rfl, hcr⟩
    · exact ⟨by simpa using ⟨by decide, hzero'⟩, by simpa using ⟨by decide, hcr'⟩⟩
    · exact ⟨by simpa using ⟨by simpa using hzero.1, hzero'⟩, by simpa using ⟨Ne.symm hcr, hcr'⟩⟩

/-- What has no line end is as it was. -/
theorem Reads.prefix_of_prefix {s v : List UInt8} (h : Reads .COMMENT s v) {t r : List UInt8}
    (hlf : LF ∉ t) (ht : t <+: v ++ r) : t <+: s ++ r := by
  induction h generalizing t with
  | nil => exact ht
  | @write t₀ v s v' ht₀ hturn _ ih =>
    cases t with
    | nil => exact List.nil_prefix
    | cons c t =>
      rw [List.mem_cons, not_or] at hlf
      rcases write_comment ht₀ hturn with rfl | ⟨b, rfl, rfl, -⟩
      · exact absurd (List.cons_prefix_cons.mp ht).1.symm hlf.1
      · obtain ⟨rfl, ht'⟩ := List.cons_prefix_cons.mp ht
        exact List.cons_prefix_cons.mpr ⟨rfl, ih hlf.2 ht'⟩

/-- No end tag comes up that was not there. -/
theorem Reads.first {s v : List UInt8} (h : Reads .COMMENT s v) {e r : List UInt8}
    (hlf : LF ∉ e) (hs : ∀ k < s.length, ¬ e <+: (s ++ r).drop k) :
    ∀ k < v.length, ¬ e <+: (v ++ r).drop k := by
  induction h with
  | nil => exact fun k hk => absurd hk (Nat.not_lt_zero k)
  | @write t v s v' ht hturn hreads ih =>
    have hrest : ∀ k < v'.length, ¬ e <+: (v' ++ r).drop k := by
      refine ih fun k hk hpre => hs (t.length + k) (by rw [List.length_append]; omega) ?_
      rwa [List.append_assoc, List.drop_append, List.drop_of_length_le (by omega),
        List.nil_append, Nat.add_sub_cancel_left]
    intro k hk hpre
    obtain ⟨c, hv⟩ : ∃ c, v = [c] := by
      rcases write_comment ht hturn with rfl | ⟨b, -, rfl, -⟩
      · exact ⟨LF, rfl⟩
      · exact ⟨b, rfl⟩
    subst hv
    cases k with
    | succ k => exact hrest k (by simpa using hk) (by simpa using hpre)
    | zero =>
      have hread := Reads.write ht hturn hreads
      exact hs 0 (List.length_pos_of_ne_nil (by simp [ht])) (hread.prefix_of_prefix hlf hpre)

end StrPair

/-! ## What is read is part of the text -/

theorem Blank.suffix {p p' : List UInt8} (h : Blank p p') : p' <:+ p := by
  obtain ⟨w, -, rfl⟩ := h
  exact List.suffix_append w p'

theorem Name.suffix {p name p' : List UInt8} (h : Name p name p') : p' <:+ p := by
  rw [h.eq]
  exact List.suffix_append name p'

theorem UpTo.suffix {endTag p str p' : List UInt8} (h : UpTo endTag p str p') : p' <:+ p := by
  rw [h.eq, ← List.append_assoc]
  exact List.suffix_append _ p'

section

variable {opts : XMLOptions}

theorem Attribute.suffix {p p' : List UInt8} {a : List UInt8 × StrPair}
    (h : Attribute opts p a p') : p' <:+ p := by
  obtain ⟨_, _, p₂, _, p₃, _, hname, hblank, hblank', -, hvalue, -⟩ := h
  calc p' <:+ p₃ := hvalue.suffix
    _ <:+ p₂ := (List.suffix_cons _ p₃).trans hblank'.suffix
    _ <:+ p := ((List.suffix_cons _ p₂).trans hblank.suffix).trans hname.suffix

theorem Attributes.suffix {p p' : List UInt8} {attributes : List (List UInt8 × StrPair)}
    (h : Attributes opts p attributes p') : p' <:+ p := by
  induction h with
  | nil p => exact List.suffix_refl p
  | cons hblank ha _ ih => exact (ih.trans ha.suffix).trans hblank.suffix

theorem Tag.suffix {p name p' : List UInt8} {slash sealed : Bool}
    {attributes : List (List UInt8 × StrPair)} (h : Tag opts p slash name attributes sealed p') :
    p' <:+ p := by
  obtain ⟨p₁, p₂, p₃, hblank, hname, hattributes, -, hblank'⟩ := h
  calc p' <:+ p₃ := (List.suffix_append _ p').trans hblank'.suffix
    _ <:+ p₁ := hattributes.suffix.trans hname.suffix
    _ <:+ p := (List.suffix_append _ p₁).trans hblank.suffix

theorem Content.suffix {p p' : List UInt8} {nodes : XMLNodes StrPair}
    (h : Content opts p nodes p') : p' <:+ p := by
  induction h with
  | nil p => exact List.suffix_refl p
  | text _ _ _ _ ih => exact ih.trans (List.suffix_append _ _)
  | leaf _ hblank _ hvalue _ ih =>
    exact ((ih.trans hvalue.suffix).trans (List.suffix_append _ _)).trans hblank.suffix
  | sealed hblank htag _ ih =>
    exact ((ih.trans htag.suffix).trans (List.suffix_cons _ _)).trans hblank.suffix
  | element hblank htag _ hblank' hclose _ ihc ih =>
    have hchildren := ((ih.trans hclose.suffix).trans (List.suffix_cons _ _)).trans hblank'.suffix
    exact (((hchildren.trans ihc).trans htag.suffix).trans (List.suffix_cons _ _)).trans
      hblank.suffix

theorem Attributes.isName {p p' : List UInt8} {attributes : List (List UInt8 × StrPair)}
    (h : Attributes opts p attributes p') : ∀ a ∈ attributes, IsName a.1 := by
  induction h with
  | nil => simp
  | cons _ ha _ ih =>
    obtain ⟨_, _, _, _, _, _, hname, -, -, -, -, rfl⟩ := ha
    exact List.forall_mem_cons.mpr ⟨hname.isName, ih⟩

/-- At a `<` there is no text. -/
theorem Content.not_startsWithText {p p' : List UInt8} {nodes : XMLNodes StrPair}
    (h : Content opts (60 :: p) nodes p') : ¬ nodes.StartsWithText := by
  generalize hq : 60 :: p = q at h
  cases h with
  | nil => exact id
  | @text str p₁ _ next hstr hlt _ _ =>
    obtain ⟨b, hb, -⟩ := hstr
    cases str with
    | nil => cases hb
    | cons c str =>
      rw [List.cons_append] at hq
      exact absurd ((List.cons.inj hq).1 ▸ List.mem_cons_self) hlt
  | leaf hkind => exact hkind
  | sealed => exact id
  | element => exact id

end

/-! ## What was loaded can be printed -/

namespace XMLNodes

/-- The values with entities are those that the printer can write. -/
def Stable : XMLNodes (List UInt8) → Prop
  | .nil => True
  | .leaf kind v next =>
    (kind = .text → Plain v ∧ ∃ b ∈ v, ¬ XMLUtil.isWhiteSpace b) ∧ next.Stable
  | .element _ attributes firstChild next =>
    (∀ a ∈ attributes, Plain a.2) ∧ firstChild.Stable ∧ next.Stable

theorem read_leaf_eq_some {kind : Leaf} {value : StrPair} {next : XMLNodes StrPair}
    {nodes : XMLNodes (List UInt8)} (h : (XMLNodes.leaf kind value next).read = some nodes) :
    ∃ v next', value.getStr = some v ∧ next.read = some next' ∧ nodes = .leaf kind v next' := by
  simp only [read, Option.bind_eq_bind, Option.bind_eq_some_iff] at h
  obtain ⟨v, hv, next', hnext, heq⟩ := h
  exact ⟨v, next', hv, hnext, (Option.some.inj heq).symm⟩

theorem read_element_eq_some {name : List UInt8} {attributes : List (List UInt8 × StrPair)}
    {firstChild next : XMLNodes StrPair} {nodes : XMLNodes (List UInt8)}
    (h : (XMLNodes.element name attributes firstChild next).read = some nodes) :
    ∃ attributes' firstChild' next', attributes'.map Prod.fst = attributes.map Prod.fst ∧
      firstChild.read = some firstChild' ∧ next.read = some next' ∧
      nodes = .element name attributes' firstChild' next' := by
  simp only [read, Option.bind_eq_bind, Option.bind_eq_some_iff] at h
  obtain ⟨attributes', hattributes, firstChild', hchildren, next', hnext, heq⟩ := h
  refine ⟨attributes', firstChild', next', ?_, hchildren, hnext, (Option.some.inj heq).symm⟩
  clear heq
  induction attributes generalizing attributes' with
  | nil =>
    cases hattributes
    rfl
  | cons a attributes ih =>
    simp only [List.mapM_cons, Option.bind_eq_bind, Option.bind_eq_some_iff,
      Option.map_eq_some_iff] at hattributes
    obtain ⟨-, ⟨v, -, rfl⟩, rest, hrest, heq⟩ := hattributes
    cases heq
    rw [List.map_cons, List.map_cons, ih rest hrest]

theorem startsWithText_of_read {raw : XMLNodes StrPair} {nodes : XMLNodes (List UInt8)}
    (h : raw.read = some nodes) (hnodes : nodes.StartsWithText) : raw.StartsWithText := by
  cases raw with
  | nil =>
    cases h
    exact hnodes
  | leaf kind value next =>
    obtain ⟨v, next', -, -, rfl⟩ := read_leaf_eq_some h
    exact hnodes
  | element name attributes firstChild next =>
    obtain ⟨_, _, _, -, -, -, rfl⟩ := read_element_eq_some h
    exact hnodes

end XMLNodes

/-- The value of a leaf that was loaded can be printed. -/
theorem holds_of_upTo {kind : Leaf} {p₁ str p₂ v : List UInt8} (hkind : kind ≠ .text)
    (hopens : kind.Opens p₁) (hvalue : UpTo kind.endTag p₁ str p₂) (hzero : 0 ∉ str)
    (hv : StrPair.getStr ⟨str, kind.flags {}⟩ = some v) : Plain v ∧ kind.Holds v := by
  have hends : LF ∉ kind.endTag := by cases kind <;> decide
  obtain ⟨v', hreads⟩ := StrPair.exists_reads str
  have hplain := hreads.plain hzero
  obtain rfl : v' = v := by
    rw [Leaf.flags_eq hkind, hreads.getStr_eq (by decide) rfl hplain.1] at hv
    exact Option.some.inj hv
  refine ⟨hplain, hreads.first hends fun k hk hpre => hvalue.first k hk ?_, ?_⟩
  · rw [hvalue.eq, ← List.append_assoc, List.drop_append_of_le_length (by simp; omega)]
    exact hpre.trans (List.prefix_append _ p₂)
  · rintro rfl
    obtain ⟨hcomment, hcdata⟩ := hopens rfl
    have hstart : ∀ t, LF ∉ t → t <+: v' → t <+: p₁ := by
      intro t hlf ht
      have hstr := hreads.prefix_of_prefix (r := []) hlf (by rwa [List.append_nil])
      rw [List.append_nil] at hstr
      exact hstr.trans ⟨_, hvalue.eq.symm⟩
    constructor
    · intro hpre
      exact hcomment (List.cons_prefix_cons.mpr ⟨rfl, List.cons_prefix_cons.mpr
        ⟨rfl, hstart _ (by decide) hpre⟩⟩)
    · intro hpre
      exact hcdata (List.cons_prefix_cons.mpr ⟨rfl, List.cons_prefix_cons.mpr
        ⟨rfl, hstart _ (by decide) hpre⟩⟩)

theorem Tag.spec {opts : XMLOptions} {p name p' : List UInt8} {slash sealed : Bool}
    {attributes : List (List UInt8 × StrPair)} (h : Tag opts p slash name attributes sealed p') :
    IsName name ∧ (∀ a ∈ attributes, IsName a.1) ∧ (attributes.map Prod.fst).Nodup := by
  obtain ⟨_, _, _, -, hname, hattributes, hnodup, -⟩ := h
  exact ⟨hname.isName, hattributes.isName, hnodup⟩

/-- An element whose tag was parsed. -/
theorem printable_element {name : List UInt8} {raw : List (List UInt8 × StrPair)}
    {attributes : List (List UInt8 × List UInt8)} {firstChild next : XMLNodes (List UInt8)}
    (hname : IsName name) (hraw : ∀ a ∈ raw, IsName a.1) (hnodup : (raw.map Prod.fst).Nodup)
    (heq : attributes.map Prod.fst = raw.map Prod.fst) (hplain : ∀ a ∈ attributes, Plain a.2)
    (hchildren : firstChild.Printable) (hnext : next.Printable) :
    (XMLNodes.element name attributes firstChild next).Printable := by
  refine ⟨hname, fun a ha => ⟨?_, hplain a ha⟩, heq ▸ hnodup, hchildren, hnext⟩
  have hmem : a.1 ∈ raw.map Prod.fst := heq ▸ List.mem_map_of_mem ha
  obtain ⟨b, hb, hba⟩ := List.mem_map.mp hmem
  exact hba ▸ hraw b hb

/-- The nodes of a text without zeros can be printed if the values with entities can. -/
theorem Content.printable {p p' : List UInt8} {raw : XMLNodes StrPair}
    (h : Content {} p raw p') (hzero : 0 ∉ p) {nodes : XMLNodes (List UInt8)}
    (hread : raw.read = some nodes) (hstable : nodes.Stable) : nodes.Printable := by
  induction h generalizing nodes with
  | nil =>
    cases hread
    trivial
  | text _ _ _ hcontent ih =>
    obtain ⟨v, next', -, hnext, rfl⟩ := XMLNodes.read_leaf_eq_some hread
    obtain ⟨hplain, hblank⟩ := hstable.1 rfl
    rw [List.mem_append, not_or] at hzero
    refine ⟨hplain, ih hzero.2 hnext hstable.2, ?_⟩
    rw [if_pos rfl]
    exact ⟨hblank, fun hstart =>
      hcontent.not_startsWithText (XMLNodes.startsWithText_of_read hnext hstart)⟩
  | @leaf p p₁ str p₂ _ kind _ hkind hblank hopens hvalue _ ih =>
    obtain ⟨v, next', hv, hnext, rfl⟩ := XMLNodes.read_leaf_eq_some hread
    have hp₁ : 0 ∉ p₁ := fun h =>
      hzero (hblank.suffix.subset (List.mem_append_right _ h))
    have hstr : 0 ∉ str := fun h => hp₁ (by rw [hvalue.eq]; exact List.mem_append_left _ h)
    obtain ⟨hplain, hholds⟩ := holds_of_upTo hkind hopens hvalue hstr hv
    refine ⟨hplain, ih (fun h => hp₁ (hvalue.suffix.subset h)) hnext hstable.2, ?_⟩
    rwa [if_neg hkind]
  | @sealed p p₁ name p₂ _ slash attributes next hblank htag _ ih =>
    obtain ⟨attributes', firstChild', next', heq, hchildren, hnext, rfl⟩ :=
      XMLNodes.read_element_eq_some hread
    obtain ⟨hplain, -, hstable'⟩ := hstable
    obtain ⟨hname, hraw, hnodup⟩ := htag.spec
    have hp₂ : 0 ∉ p₂ := fun h =>
      hzero (hblank.suffix.subset (List.mem_cons_of_mem _ (htag.suffix.subset h)))
    cases hchildren
    exact printable_element hname hraw hnodup heq hplain trivial (ih hp₂ hnext hstable')
  | @element p p₁ name p₂ p₃ p₄ p₅ _ attributes ignored firstChild next hblank htag hcontent hblank'
      hclose _ ihc ih =>
    obtain ⟨attributes', firstChild', next', heq, hchildren, hnext, rfl⟩ :=
      XMLNodes.read_element_eq_some hread
    obtain ⟨hplain, hstable₁, hstable₂⟩ := hstable
    obtain ⟨hname, hraw, hnodup⟩ := htag.spec
    have hp₂ : 0 ∉ p₂ := fun h =>
      hzero (hblank.suffix.subset (List.mem_cons_of_mem _ (htag.suffix.subset h)))
    have hp₅ : 0 ∉ p₅ := fun h => hp₂ (hcontent.suffix.subset
      (hblank'.suffix.subset (List.mem_cons_of_mem _ (hclose.suffix.subset h))))
    exact printable_element hname hraw hnodup heq hplain (ihc hp₂ hchildren hstable₁)
      (ih hp₅ hnext hstable₂)

theorem zero_not_mem_documentText (bytes : List UInt8) : 0 ∉ documentText bytes := by
  have htake : 0 ∉ bytes.takeWhile (· ≠ 0) := fun h => by
    simpa using List.mem_takeWhile_imp h
  have hskip : 0 ∉ XMLUtil.skipWhiteSpace (bytes.takeWhile (· ≠ 0)) := fun h =>
    htake ((blank_skipWhiteSpace _).suffix.subset h)
  rw [documentText]
  unfold XMLUtil.readBOM
  split
  · rename_i p hp
    rw [hp] at hskip
    exact fun h =>
      hskip (List.mem_cons_of_mem _ (List.mem_cons_of_mem _ (List.mem_cons_of_mem _ h)))
  · exact hskip

/-- **Load, save, load.** A document that was loaded without an error, and whose strings could be
read, is printed with its byte order mark or without one as it was. It is then loaded again without
an error and with the same values. -/
theorem XMLDocument.parse_saved {compact : Bool} {bytes : List UInt8}
    {nodes : XMLNodes (List UInt8)} (hok : (parse {} bytes).failure = none)
    (hread : (parse {} bytes).children.read = some nodes) (hstable : nodes.Stable)
    (hnil : nodes ≠ .nil) (htop : nodes.NoText) (hspaced : compact = true ∨ nodes.Spaced) :
    let doc := parse {} (printDocument compact (parse {} bytes).writeBOM true nodes)
    doc.failure = none ∧ doc.writeBOM = (parse {} bytes).writeBOM ∧
      doc.children.read = some nodes := by
  intro doc
  obtain ⟨-, p', hcontent, -⟩ := content_of_parse hok
  have hnodes := hcontent.printable (zero_not_mem_documentText bytes) hread hstable
  have hdoc : doc = ⟨(parse {} bytes).writeBOM, nodes.escaped, none⟩ :=
    parse_print hnodes hnil htop hspaced
  rw [hdoc]
  exact ⟨rfl, rfl, XMLNodes.read_escaped hnodes⟩

/-- A file with a line end in a comment, an element `a` with a reference in its attribute, and an
entity as its text. -/
def savedFile : List UInt8 :=
  [60, 33, 45, 45, 99, 13, 10, 45, 45, 62] ++
    [60, 97, 32, 107, 61, 39, 38, 35, 51, 52, 59, 39, 62, 38, 108, 116, 59, 60, 47, 97, 62]

/-- The nodes of that file. -/
def savedNodes : XMLNodes (List UInt8) :=
  .leaf .comment [99, 10] (.element [97] [([107], [34])] (.leaf .text [60] .nil) .nil)

theorem XMLDocument.parse_savedFile :
    (parse {} (printDocument false false true savedNodes)).children.read = some savedNodes := by
  have hstable : savedNodes.Stable :=
    ⟨(fun h => by cases h), by simp only [List.forall_mem_singleton]; decide,
      ⟨fun _ => ⟨by decide, 60, by simp, by decide⟩, trivial⟩, trivial⟩
  have hok : (parse {} savedFile).failure = none := by decide +kernel
  exact (parse_saved hok (by decide +kernel) hstable (fun h => by cases h) ⟨by decide, trivial⟩
    (Or.inr ⟨(fun h => by cases h), ⟨fun _ => id, trivial⟩, trivial⟩)).2.2

end PlutoServer.Tinyxml2
