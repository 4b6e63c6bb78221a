import Mathlib.Logic.Relation
import Mathlib.Tactic.SplitIfs
import Ilic.RepositoryCore.XmlDocuments

/-! # Reading documents

A turn of the loop reads one tag, one closed section, or the characters and references up to the
next tag.  What is read in the end is the content of a document with one root element, and every
such document is read, up to the limit for elements inside of each other.
-/

namespace Ilic.RepositoryCore
open Foundation Foundation.Machine Foundation.Scanner Relation

/-! ## One piece or one tag -/

/-- What is read at once in front of the rest. -/
inductive Reads (maxDepth : ℕ) : XmlState → XmlState → Prop where
  | piece {top : Node} {below : List Node} {sawRoot : Bool} {p : Piece} (hp : p.WellFormed)
      (rest : JsString) :
      Reads maxDepth ⟨top, below, p.text ++ rest, sawRoot⟩
        ⟨top.addText p.value, below, rest, sawRoot⟩
  | empty {top : Node} {below : List Node} {sawRoot : Bool} {tag : Tag} (htag : tag.WellFormed)
      (rest : JsString) :
      Reads maxDepth ⟨top, below, unit '<' :: (tag.text ++ unit '/' :: unit '>' :: rest), sawRoot⟩
        ⟨top.addChild { name := tag.name }, below, rest, sawRoot || below.isEmpty⟩
  | opened {top : Node} {below : List Node} {sawRoot : Bool} {tag : Tag} (htag : tag.WellFormed)
      (hdepth : below.length + 1 < maxDepth) (rest : JsString) :
      Reads maxDepth ⟨top, below, unit '<' :: (tag.text ++ unit '>' :: rest), sawRoot⟩
        ⟨{ name := tag.name }, top :: below, rest, sawRoot || below.isEmpty⟩
  | closed {top parent : Node} {below : List Node} {sawRoot : Bool} {space : JsString}
      (hname : IsXmlName top.name) (hspace : AllSpace space) (rest : JsString) :
      Reads maxDepth
        ⟨top, parent :: below, unit '<' :: unit '/' :: (top.name ++ (space ++ unit '>' :: rest)),
          sawRoot⟩
        ⟨parent.addChild top, below, rest, sawRoot⟩

/-- The beginnings that a turn asks for. -/
theorem js_beginnings : js "<!--" = [60, 33, 45, 45] ∧ js "<![CDATA[" = [60, 33, 91, 67, 68, 65, 84, 65, 91] ∧
    js "<?" = [60, 63] ∧ js "<!DOCTYPE" = [60, 33, 68, 79, 67, 84, 89, 80, 69] ∧
    js "<!ENTITY" = [60, 33, 69, 78, 84, 73, 84, 89] ∧ js "<!" = [60, 33] ∧ js "</" = [60, 47] ∧
    unit '<' = 60 := by
  decide

/-- A name begins with none of the signs that stand behind `<` otherwise. -/
theorem isPrefixOf_name {name : JsString} (h : IsXmlName name) (rest : JsString) :
    (js "<!--").isPrefixOf (unit '<' :: (name ++ rest)) = false ∧
      (js "<![CDATA[").isPrefixOf (unit '<' :: (name ++ rest)) = false ∧
      (js "<?").isPrefixOf (unit '<' :: (name ++ rest)) = false ∧
      (js "<!DOCTYPE").isPrefixOf (unit '<' :: (name ++ rest)) = false ∧
      (js "<!ENTITY").isPrefixOf (unit '<' :: (name ++ rest)) = false ∧
      (js "<!").isPrefixOf (unit '<' :: (name ++ rest)) = false ∧
      (js "</").isPrefixOf (unit '<' :: (name ++ rest)) = false := by
  obtain ⟨hcomment, hcdata, hinstruction, hdoctype, hentity, hmarkup, hend, hless⟩ := js_beginnings
  rw [hcomment, hcdata, hinstruction, hdoctype, hentity, hmarkup, hend, hless]
  cases name with
  | nil => exact h.elim
  | cons c name =>
    have hbang : (33 == c) = false := by
      apply beq_false_of_ne
      rintro rfl
      exact absurd h.1 (by decide)
    have hask : (63 == c) = false := by
      apply beq_false_of_ne
      rintro rfl
      exact absurd h.1 (by decide)
    have hslash : (47 == c) = false := by
      apply beq_false_of_ne
      rintro rfl
      exact absurd h.1 (by decide)
    simp only [List.cons_append, List.isPrefixOf, hbang, hask, hslash, Bool.false_and, Bool.and_false,
      and_self]

theorem turn_openTag {name : JsString} (h : IsXmlName name) (rest : JsString) (top : Node)
    (below : List Node) (sawRoot : Bool) (maxDepth : ℕ) :
    XmlState.turn ⟨top, below, unit '<' :: (name ++ rest), sawRoot⟩ maxDepth =
      XmlState.openTag ⟨top, below, unit '<' :: (name ++ rest), sawRoot⟩ maxDepth := by
  obtain ⟨hcomment, hcdata, hinstruction, hdoctype, hentity, hmarkup, hend⟩ :=
    isPrefixOf_name h rest
  simp [XmlState.turn, hcomment, hcdata, hinstruction, hdoctype, hentity, hmarkup, hend]

theorem turn_text {rest : JsString} (h : rest.head? ≠ some (unit '<')) (top : Node)
    (below : List Node) (sawRoot : Bool) (maxDepth : ℕ) :
    XmlState.turn ⟨top, below, rest, sawRoot⟩ maxDepth =
      match decodeEntities (rest.takeWhile (· ≠ unit '<')) with
      | .error e => .error e
      | .ok text =>
        .ok ⟨top.addText text, below, rest.dropWhile (· ≠ unit '<'), sawRoot⟩ := by
  have hturn : XmlState.turn ⟨top, below, rest, sawRoot⟩ maxDepth =
      XmlState.readText ⟨top, below, rest, sawRoot⟩ := if_pos h
  exact hturn

/-- The loop ends so. -/
def XmlState.Ends (maxDepth : ℕ) (s : XmlState) (ending : Except XmlError Node) : Prop :=
  EndsWith (XmlState.step · maxDepth) s ending

theorem ends_of_turn {maxDepth : ℕ} {s s' : XmlState} {ending : Except XmlError Node}
    (hrest : s.rest ≠ []) (h : s.turn maxDepth = .ok s') :
    s.Ends maxDepth ending ↔ s'.Ends maxDepth ending := by
  apply endsWith_of_inl
  rw [XmlState.step, if_neg hrest, h]

theorem ends_of_error {maxDepth : ℕ} {s : XmlState} {ending : Except XmlError Node} {e : XmlError}
    (hrest : s.rest ≠ []) (h : s.turn maxDepth = .error e) :
    s.Ends maxDepth ending ↔ ending = .error e := by
  apply endsWith_of_inr
  rw [XmlState.step, if_neg hrest, h]

section
variable {maxDepth : ℕ} {top : Node} {below : List Node} {rest : JsString} {sawRoot : Bool}

theorem turn_closed {kind : Section} {body : JsString} (h : EndsAtFirst kind.close body) :
    XmlState.turn ⟨top, below, kind.opened ++ (body ++ kind.close) ++ rest, sawRoot⟩ maxDepth =
      .ok ⟨top.addText (kind.value body), below, rest, sawRoot⟩ := by
  obtain ⟨hcomment, hcdata, hinstruction, -, -, -, -, hless⟩ := js_beginnings
  have hcut : cutAt kind.close (body ++ (kind.close ++ rest)) = some (body, rest) := by
    rw [← List.append_assoc]
    exact cutAt_append (by cases kind <;> decide) h
  cases kind <;>
    simp_all [XmlState.turn, XmlState.readClosed, Section.opened, Section.close, Section.value,
      List.isPrefixOf]

theorem turn_empty {tag : Tag} (h : tag.WellFormed) :
    XmlState.turn ⟨top, below, unit '<' :: (tag.text ++ unit '/' :: unit '>' :: rest), sawRoot⟩
        maxDepth =
      .ok ⟨top.addChild { name := tag.name }, below, rest, sawRoot || below.isEmpty⟩ := by
  have hend : AtTagEnd (unit '/' :: unit '>' :: rest) := .inr rfl
  obtain ⟨behind, hname, hread⟩ := read_tag h hend
  have hturn := turn_openTag h.name (tag.space ++ tag.attributes.flatMap Attribute.text ++
    unit '/' :: unit '>' :: rest) top below sawRoot maxDepth
  rw [Tag.text] at hname ⊢
  simp only [List.append_assoc] at hturn hname ⊢
  rw [hturn, XmlState.openTag]
  simp only [List.drop_succ_cons, List.drop_zero, hname, hread]
  rfl

theorem turn_opened {tag : Tag} (h : tag.WellFormed) (hdepth : below.length + 1 < maxDepth) :
    XmlState.turn ⟨top, below, unit '<' :: (tag.text ++ unit '>' :: rest), sawRoot⟩ maxDepth =
      .ok ⟨{ name := tag.name }, top :: below, rest, sawRoot || below.isEmpty⟩ := by
  have hend : AtTagEnd (unit '>' :: rest) := .inl rfl
  obtain ⟨behind, hname, hread⟩ := read_tag h hend
  have hturn := turn_openTag h.name (tag.space ++ tag.attributes.flatMap Attribute.text ++
    unit '>' :: rest) top below sawRoot maxDepth
  have hslash : (js "/>").isPrefixOf (unit '>' :: rest) = false := rfl
  rw [Tag.text] at hname ⊢
  simp only [List.append_assoc] at hturn hname ⊢
  rw [hturn, XmlState.openTag]
  simp only [List.drop_succ_cons, List.drop_zero, hname, hread, hslash, Bool.false_eq_true, if_false,
    List.head?_cons, ne_eq, not_true_eq_false, if_neg (Nat.not_le.mpr hdepth)]

theorem turn_endTag {parent : Node} {space : JsString} (hname : IsXmlName top.name)
    (hspace : AllSpace space) :
    XmlState.turn ⟨top, parent :: below,
        unit '<' :: unit '/' :: (top.name ++ (space ++ unit '>' :: rest)), sawRoot⟩ maxDepth =
      .ok ⟨parent.addChild top, below, rest, sawRoot⟩ := by
  obtain ⟨hcomment, hcdata, hinstruction, hdoctype, hentity, hmarkup, hend, hless⟩ := js_beginnings
  have hclose : ∀ c ∈ (unit '>' :: rest).head?, isSpace c = false := by
    intro c hc
    cases hc
    decide
  have hpart : ∀ c ∈ (space ++ unit '>' :: rest).head?, isNamePart c = false := by
    intro c hc
    cases space with
    | nil =>
      cases hc
      decide
    | cons d space =>
      cases hc
      apply Bool.eq_false_iff.mpr
      intro hpart
      have hc := hspace c List.mem_cons_self
      rw [not_isSpace_of_isNamePart hpart] at hc
      cases hc
  have hturn : XmlState.turn ⟨top, parent :: below,
        unit '<' :: unit '/' :: (top.name ++ (space ++ unit '>' :: rest)), sawRoot⟩ maxDepth =
      XmlState.closeTag ⟨top, parent :: below,
        unit '<' :: unit '/' :: (top.name ++ (space ++ unit '>' :: rest)), sawRoot⟩ := by
    rfl
  rw [hturn, XmlState.closeTag]
  simp only [List.drop_succ_cons, List.drop_zero, parseName_append hname hpart,
    skipSpace_append hspace hclose, ne_eq, not_true_eq_false, if_false]

/-- A character or a reference may be read before the other ones in front of the next `<`. -/
theorem ends_datum {d : Datum} (h : d.WellFormed) (hless : unit '<' ∉ d.text)
    {ending : Except XmlError Node} :
    XmlState.Ends maxDepth ⟨top, below, d.text ++ rest, sawRoot⟩ ending ↔
      XmlState.Ends maxDepth ⟨top.addText d.value, below, rest, sawRoot⟩ ending := by
  have hall : ∀ c ∈ d.text, decide (c ≠ unit '<') = true := by
    intro c hc
    rw [decide_eq_true_eq]
    rintro rfl
    exact hless hc
  have hne : d.text ++ rest ≠ [] := by
    cases d <;> exact List.cons_ne_nil _ _
  have hhead : (d.text ++ rest).head? ≠ some (unit '<') := by
    cases d with
    | char c =>
      intro heq
      cases heq
      exact hless List.mem_cons_self
    | reference entity => exact fun heq => absurd (Option.some.inj heq) (by decide)
  have hturn := turn_text hhead top below sawRoot maxDepth
  rw [List.takeWhile_append_of_pos hall, List.dropWhile_append_of_pos hall,
    decodeEntities_text_append h] at hturn
  by_cases hnext : rest.head? = some (unit '<') ∨ rest = []
  · have htake : rest.takeWhile (· ≠ unit '<') = [] := by
      rcases hnext with hnext | rfl
      · cases rest with
        | nil => rfl
        | cons c rest =>
          cases hnext
          rfl
      · rfl
    have hdrop : rest.dropWhile (· ≠ unit '<') = rest := by
      have happend := rest.takeWhile_append_dropWhile (p := (· ≠ unit '<'))
      rwa [htake, List.nil_append] at happend
    rw [htake, hdrop] at hturn
    rw [ends_of_turn hne hturn, List.append_nil]
  · rw [not_or] at hnext
    have hturn' := turn_text hnext.1 (top.addText d.value) below sawRoot maxDepth
    cases hdecode : decodeEntities (rest.takeWhile (· ≠ unit '<')) with
    | error e =>
      rw [hdecode] at hturn hturn'
      rw [ends_of_error hne hturn, ends_of_error hnext.2 hturn']
    | ok output =>
      rw [hdecode] at hturn hturn'
      rw [ends_of_turn hne hturn, ends_of_turn hnext.2 hturn']
      rw [Node.addText_addText]

theorem Reads.ends {s s' : XmlState} {ending : Except XmlError Node} (h : Reads maxDepth s s') :
    s.Ends maxDepth ending ↔ s'.Ends maxDepth ending := by
  cases h with
  | @piece top below sawRoot p hp rest =>
    cases p with
    | datum d => exact ends_datum hp.1 hp.2
    | closed kind body =>
      exact ends_of_turn (by cases kind <;> exact List.cons_ne_nil _ _) (turn_closed hp)
  | empty htag rest => exact ends_of_turn (List.cons_ne_nil _ _) (turn_empty htag)
  | opened htag hdepth rest => exact ends_of_turn (List.cons_ne_nil _ _) (turn_opened htag hdepth)
  | closed hname hspace rest =>
    exact ends_of_turn (List.cons_ne_nil _ _) (turn_endTag hname hspace)

/-! ## What a turn takes -/

theorem reads_data {data : List Datum} (h : ∀ d ∈ data, d.WellFormed)
    (hless : unit '<' ∉ data.flatMap Datum.text) (top : Node) (rest : JsString) :
    ReflTransGen (Reads maxDepth) ⟨top, below, data.flatMap Datum.text ++ rest, sawRoot⟩
      ⟨top.addText (data.flatMap Datum.value), below, rest, sawRoot⟩ := by
  induction data generalizing top with
  | nil =>
    rw [List.flatMap_nil, List.flatMap_nil, List.nil_append, Node.addText_nil]
  | cons d data ih =>
    rw [List.forall_mem_cons] at h
    rw [List.flatMap_cons, List.mem_append, not_or] at hless
    have hfirst : Reads maxDepth ⟨top, below, d.text ++ (data.flatMap Datum.text ++ rest), sawRoot⟩
        ⟨top.addText d.value, below, data.flatMap Datum.text ++ rest, sawRoot⟩ :=
      .piece (p := .datum d) ⟨h.1, hless.1⟩ _
    have hlater := ih h.2 hless.2 (top.addText d.value)
    rw [Node.addText_addText] at hlater
    rw [List.flatMap_cons, List.flatMap_cons, List.append_assoc]
    exact .head hfirst hlater

theorem reads_readText {s : XmlState} (h : XmlState.readText ⟨top, below, rest, sawRoot⟩ = .ok s) :
    ReflTransGen (Reads maxDepth) ⟨top, below, rest, sawRoot⟩ s := by
  rw [XmlState.readText] at h
  split at h
  case h_1 => cases h
  case h_2 text hdecode =>
    cases h
    obtain ⟨data, hdata, htext, rfl⟩ := exists_data hdecode
    have hless : unit '<' ∉ data.flatMap Datum.text := by
      intro hmem
      rw [htext] at hmem
      have hnot := List.mem_takeWhile_imp hmem
      simp at hnot
    have hsplit := rest.takeWhile_append_dropWhile (p := (· ≠ unit '<'))
    rw [← htext] at hsplit
    have hreads : ReflTransGen (Reads maxDepth)
        ⟨top, below, data.flatMap Datum.text ++ rest.dropWhile (· ≠ unit '<'), sawRoot⟩
        ⟨top.addText (data.flatMap Datum.value), below, rest.dropWhile (· ≠ unit '<'), sawRoot⟩ :=
      reads_data hdata hless top _
    rwa [hsplit] at hreads

theorem reads_readClosed (kind : Section) {message : String} {text : JsString → JsString}
    {s : XmlState} (htext : ∀ body, text body = kind.value body)
    (hbegin : kind.opened.isPrefixOf rest = true)
    (h : XmlState.readClosed ⟨top, below, rest, sawRoot⟩ kind.opened kind.close message text =
      .ok s) :
    Reads maxDepth ⟨top, below, rest, sawRoot⟩ s := by
  obtain ⟨later, rfl⟩ := List.isPrefixOf_iff_prefix.mp hbegin
  rw [XmlState.readClosed, List.drop_left] at h
  split at h
  case h_1 => cases h
  case h_2 body behind hcut =>
    cases h
    obtain ⟨rfl, hfirst⟩ := (cutAt_iff (by cases kind <;> decide)).mp hcut
    rw [htext, ← List.append_assoc]
    exact .piece (p := .closed kind body) hfirst behind

theorem reads_closeTag {s : XmlState}
    (h : XmlState.closeTag ⟨top, below, unit '<' :: unit '/' :: rest, sawRoot⟩ = .ok s) :
    Reads maxDepth ⟨top, below, unit '<' :: unit '/' :: rest, sawRoot⟩ s := by
  rw [XmlState.closeTag] at h
  split at h
  case h_1 => cases h
  case h_2 name behind hname =>
    obtain ⟨hrest, hxml, -⟩ := eq_append_of_parseName hname
    obtain ⟨space, hspace, heq, -⟩ := exists_skipped behind
    split at h
    case h_1 => cases h
    case h_2 c later hskip =>
      split at h
      case isTrue => cases h
      case isFalse hc =>
        cases below with
        | nil => cases h
        | cons parent below =>
          dsimp only at h
          split at h
          case isTrue => cases h
          case isFalse htop =>
            cases h
            rw [not_not] at hc htop
            rw [hskip, hc] at heq
            rw [List.drop_succ_cons, List.drop_succ_cons, List.drop_zero] at hrest
            subst htop
            rw [hrest, heq]
            exact .closed hxml hspace later

theorem reads_openTag {s : XmlState}
    (h : XmlState.openTag ⟨top, below, unit '<' :: rest, sawRoot⟩ maxDepth = .ok s) :
    Reads maxDepth ⟨top, below, unit '<' :: rest, sawRoot⟩ s := by
  rw [XmlState.openTag] at h
  split at h
  case h_1 => cases h
  case h_2 name behind hname =>
    split at h
    case h_1 => cases h
    case h_2 later hread =>
      obtain ⟨tag, htag, rfl, hrest⟩ := exists_tag hname hread
      rw [List.drop_succ_cons, List.drop_zero] at hrest
      subst hrest
      dsimp only at h
      split at h
      case isTrue hslash =>
        cases h
        obtain ⟨inner, rfl⟩ := exists_of_selfClosing hslash
        exact .empty htag inner
      case isFalse =>
        split at h
        case isTrue => cases h
        case isFalse hclose =>
          split at h
          case isTrue => cases h
          case isFalse hdepth =>
            cases h
            rw [not_not] at hclose
            cases later with
            | nil => cases hclose
            | cons c inner =>
              cases hclose
              exact .opened htag (Nat.not_le.mp hdepth) inner

/-- A turn at `<` reads one tag or one closed section. -/
theorem reads_markup {s : XmlState} (hless : rest.head? = some (unit '<'))
    (h : XmlState.turn ⟨top, below, rest, sawRoot⟩ maxDepth = .ok s) :
    Reads maxDepth ⟨top, below, rest, sawRoot⟩ s := by
  rw [XmlState.turn, if_neg (not_not_intro hless)] at h
  split at h
  case isTrue hbegin => exact reads_readClosed .comment (fun _ => rfl) hbegin h
  split at h
  case isTrue hbegin => exact reads_readClosed .cdata (fun _ => rfl) hbegin h
  split at h
  case isTrue hbegin => exact reads_readClosed .instruction (fun _ => rfl) hbegin h
  split at h
  case isTrue => cases h
  split at h
  case isTrue => cases h
  split at h
  case isTrue hbegin =>
    obtain ⟨later, rfl⟩ := List.isPrefixOf_iff_prefix.mp hbegin
    exact reads_closeTag h
  case isFalse =>
    cases rest with
    | nil => cases hless
    | cons c later =>
      cases hless
      exact reads_openTag h

theorem reads_turn {s : XmlState} (h : XmlState.turn ⟨top, below, rest, sawRoot⟩ maxDepth = .ok s) :
    ReflTransGen (Reads maxDepth) ⟨top, below, rest, sawRoot⟩ s := by
  by_cases hless : rest.head? = some (unit '<')
  · exact .single (reads_markup hless h)
  · rw [XmlState.turn, if_pos hless] at h
    exact reads_readText h

/-! ## What the loop takes -/

def Node.extend (node : Node) (content : Content) : Node :=
  { node with text := node.text ++ content.value, children := node.children ++ content.nodes }

theorem Node.extend_done (node : Node) : node.extend .done = node := by
  cases node
  simp only [extend, Content.value, Content.nodes, List.append_nil]

theorem Node.extend_piece (node : Node) (p : Piece) (content : Content) :
    node.extend (.piece p content) = (node.addText p.value).extend content := by
  simp only [extend, addText, Content.value, Content.nodes, List.append_assoc]

theorem Node.extend_empty (node : Node) (tag : Tag) (content : Content) :
    node.extend (.empty tag content) = (node.addChild { name := tag.name }).extend content := by
  simp only [extend, addChild, Content.value, Content.nodes, List.append_assoc,
    List.singleton_append]

theorem Node.extend_element (node : Node) (tag : Tag) (inner : Content) (space : JsString)
    (content : Content) : node.extend (.element tag inner space content) =
      (node.addChild (({ name := tag.name } : Node).extend inner)).extend content := by
  simp only [extend, addChild, Content.value, Content.nodes, List.append_assoc,
    List.singleton_append, List.nil_append]

/-- Inside of this many elements there is room for the content. -/
def Content.Fits (maxDepth : ℕ) (content : Content) (outer : ℕ) : Prop :=
  content.depth = 0 ∨ content.depth + outer < maxDepth

theorem reads_content {content : Content} (h : content.WellFormed) (top : Node)
    (below : List Node) (rest : JsString) (sawRoot : Bool)
    (hfits : content.Fits maxDepth below.length) :
    ReflTransGen (Reads maxDepth) ⟨top, below, content.text ++ rest, sawRoot⟩
      ⟨top.extend content, below, rest, sawRoot || (below.isEmpty && !content.nodes.isEmpty)⟩ := by
  induction content generalizing top below rest sawRoot with
  | done =>
    rw [Content.text, List.nil_append, Node.extend_done, Content.nodes, List.isEmpty_nil,
      Bool.not_true, Bool.and_false, Bool.or_false]
  | piece p later ih =>
    have hlater := ih h.2 (top.addText p.value) below rest sawRoot hfits
    rw [Content.text, List.append_assoc, Node.extend_piece]
    exact .head (.piece h.1 _) hlater
  | empty tag later ih =>
    have hlater := ih h.2 (top.addChild { name := tag.name }) below rest (sawRoot || below.isEmpty)
      hfits
    have hroot : (sawRoot || below.isEmpty || (below.isEmpty && !later.nodes.isEmpty)) =
        (sawRoot || (below.isEmpty && !(Content.empty tag later).nodes.isEmpty)) := by
      cases sawRoot <;> cases below.isEmpty <;> rfl
    rw [hroot] at hlater
    rw [Node.extend_empty]
    simp only [Content.text, List.cons_append, List.append_assoc]
    exact .head (.empty h.1 _) hlater
  | element tag inner space later ihinner ihlater =>
    obtain ⟨htag, hinner, hspace, hlater⟩ := h
    have hdepth : max (inner.depth + 1) later.depth + below.length < maxDepth := by
      rcases hfits with hzero | hless
      · rw [Content.depth] at hzero
        omega
      · exact hless
    have hreads := ihinner hinner { name := tag.name } (top :: below)
      (unit '<' :: unit '/' :: (tag.name ++ (space ++ unit '>' :: (later.text ++ rest))))
      (sawRoot || below.isEmpty) (.inr (by rw [List.length_cons]; omega))
    rw [List.isEmpty_cons, Bool.false_and, Bool.or_false] at hreads
    have hreads' := ihlater hlater (top.addChild (({ name := tag.name } : Node).extend inner)) below
      rest (sawRoot || below.isEmpty) (.inr (by omega))
    have hroot : (sawRoot || below.isEmpty || (below.isEmpty && !later.nodes.isEmpty)) =
        (sawRoot || (below.isEmpty && !(Content.element tag inner space later).nodes.isEmpty)) := by
      cases sawRoot <;> cases below.isEmpty <;> rfl
    rw [hroot] at hreads'
    rw [Node.extend_element]
    simp only [Content.text, List.cons_append, List.append_assoc]
    exact .head (.opened htag (by omega) _)
      (hreads.trans (.head (.closed htag.name hspace _) hreads'))

/-- The rest closes all elements, and the document has this root. -/
def Finishes (maxDepth : ℕ) (root : Node) : List Node → Node → JsString → Prop
  | [], top, rest => ∃ content : Content, content.WellFormed ∧ content.Fits maxDepth 0 ∧
      rest = content.text ∧ (top.extend content).children = [root]
  | parent :: below, top, rest => ∃ (content : Content) (space later : JsString),
      content.WellFormed ∧ content.Fits maxDepth (below.length + 1) ∧ AllSpace space ∧
        rest = content.text ++ (unit '<' :: unit '/' :: (top.name ++ (space ++ unit '>' :: later))) ∧
        Finishes maxDepth root below (parent.addChild (top.extend content)) later

/-- More content in front. -/
theorem Finishes.prepend {root top top' : Node} {grow : Content → Content} {text : JsString}
    (htext : ∀ content, (grow content).text = text ++ content.text)
    (hextend : ∀ content, top.extend (grow content) = top'.extend content)
    (hname : top'.name = top.name)
    (hgrow : ∀ content : Content, content.WellFormed → content.Fits maxDepth below.length →
      (grow content).WellFormed ∧ (grow content).Fits maxDepth below.length)
    (h : Finishes maxDepth root below top' rest) : Finishes maxDepth root below top (text ++ rest) := by
  cases below with
  | nil =>
    obtain ⟨content, hwell, hfits, rfl, hroot⟩ := h
    obtain ⟨hwell', hfits'⟩ := hgrow content hwell hfits
    exact ⟨grow content, hwell', hfits', (htext content).symm, by rw [hextend, hroot]⟩
  | cons parent below =>
    obtain ⟨content, space, later, hwell, hfits, hspace, rfl, hlater⟩ := h
    obtain ⟨hwell', hfits'⟩ := hgrow content hwell hfits
    refine ⟨grow content, space, later, hwell', hfits', hspace, ?_, ?_⟩
    · rw [htext, hname, List.append_assoc]
    · rwa [hextend]

theorem Finishes.of_reads {root : Node} {s s' : XmlState} (h : Reads maxDepth s s')
    (hfinishes : Finishes maxDepth root s'.below s'.top s'.rest) :
    Finishes maxDepth root s.below s.top s.rest := by
  cases h with
  | @piece top below sawRoot p hp rest =>
    apply hfinishes.prepend (fun _ => rfl) (top.extend_piece p) rfl
    exact fun content hwell hfits => ⟨⟨hp, hwell⟩, hfits⟩
  | @empty top below sawRoot tag htag rest =>
    have htext : ∀ content : Content, (Content.empty tag content).text =
        unit '<' :: (tag.text ++ [unit '/', unit '>']) ++ content.text := by
      intro content
      simp [Content.text]
    have hgrown := hfinishes.prepend htext (top.extend_empty tag) rfl
      fun content hwell hfits => ⟨⟨htag, hwell⟩, hfits⟩
    simpa using hgrown
  | @opened top below sawRoot tag htag hdepth rest =>
    obtain ⟨inner, space, later, hwell, hfits, hspace, hrest, hlater⟩ := hfinishes
    dsimp only at hrest hlater
    have htext : ∀ content : Content, (Content.element tag inner space content).text =
        unit '<' :: (tag.text ++ unit '>' :: (inner.text ++ unit '<' :: unit '/' ::
          (tag.name ++ (space ++ [unit '>'])))) ++ content.text := by
      intro content
      simp [Content.text]
    have hgrown := hlater.prepend htext (top.extend_element tag inner space) rfl
      fun content hwell' hfits' => ⟨⟨htag, hwell, hspace, hwell'⟩, .inr (by
        rw [Content.depth]
        rw [Content.Fits] at hfits hfits'
        omega)⟩
    subst hrest
    simpa using hgrown
  | @closed top parent below sawRoot space hname hspace rest =>
    refine ⟨.done, space, rest, trivial, .inl rfl, hspace, rfl, ?_⟩
    rwa [Node.extend_done]

theorem Finishes.of_chain {root : Node} {s s' : XmlState}
    (h : ReflTransGen (Reads maxDepth) s s') (hfinishes : Finishes maxDepth root s'.below s'.top s'.rest) :
    Finishes maxDepth root s.below s.top s.rest := by
  induction h using ReflTransGen.head_induction_on with
  | refl => exact hfinishes
  | head hfirst _ hlater => exact .of_reads hfirst hlater

theorem Finishes.of_run {root : Node} {n : ℕ} {s : XmlState}
    (h : run (XmlState.step · maxDepth) n s = .inr (.ok root)) :
    Finishes maxDepth root s.below s.top s.rest := by
  induction n generalizing s with
  | zero => cases h
  | succ n ih =>
    obtain ⟨top, below, rest, sawRoot⟩ := s
    rw [run_succ, XmlState.step] at h
    split at h
    case isTrue hrest =>
      simp only [Sum.elim_inr, Sum.inr.injEq, XmlState.finish] at h
      split at h
      case isTrue => cases h
      case isFalse hopen =>
        rw [not_or, not_not] at hopen
        split at h
        case h_1 root' hchildren =>
          cases h
          dsimp only at hrest hopen hchildren
          rw [hrest, hopen.1]
          exact ⟨.done, trivial, .inl rfl, rfl, by rw [Node.extend_done, hchildren]⟩
        case h_2 => cases h
    case isFalse hrest =>
      cases hturn : XmlState.turn ⟨top, below, rest, sawRoot⟩ maxDepth with
      | error e =>
        rw [hturn] at h
        cases h
      | ok s' =>
        rw [hturn, Sum.elim_inl] at h
        exact .of_chain (reads_turn hturn) (ih h)

/-! ## Documents -/

theorem Reads.shorter {s s' : XmlState} (h : Reads maxDepth s s') : s'.rest.length < s.rest.length := by
  cases h with
  | @piece top below sawRoot p hp rest =>
    have hne : p.text ≠ [] := by
      cases p with
      | datum d => cases d <;> exact List.cons_ne_nil _ _
      | closed kind body => cases kind <;> exact List.cons_ne_nil _ _
    have hpos := List.length_pos_of_ne_nil hne
    simp only [List.length_append]
    omega
  | empty htag rest =>
    simp only [List.length_cons, List.length_append]
    omega
  | opened htag hdepth rest =>
    simp only [List.length_cons, List.length_append]
    omega
  | closed hname hspace rest =>
    simp only [List.length_cons, List.length_append]
    omega

theorem turn_shorter {s : XmlState} (hrest : rest ≠ [])
    (h : XmlState.turn ⟨top, below, rest, sawRoot⟩ maxDepth = .ok s) :
    s.rest.length < rest.length := by
  by_cases hless : rest.head? = some (unit '<')
  · exact (reads_markup hless h).shorter
  · rw [turn_text hless] at h
    split at h
    case h_1 => cases h
    case h_2 text hdecode =>
      cases h
      cases rest with
      | nil => exact absurd rfl hrest
      | cons c rest =>
        have hc : c ≠ unit '<' := fun hc => hless (congrArg some hc)
        have hle := (List.dropWhile_suffix (· ≠ unit '<') (l := rest)).length_le
        rw [List.dropWhile_cons_of_pos (by simpa using hc), List.length_cons]
        exact Nat.lt_succ_of_le hle

theorem step_shorter {s s' : XmlState} (h : s.step maxDepth = .inl s') :
    s'.rest.length < s.rest.length := by
  rw [XmlState.step] at h
  split at h
  case isTrue => cases h
  case isFalse hrest =>
    split at h
    case h_1 => cases h
    case h_2 s'' hturn =>
      cases h
      exact turn_shorter hrest hturn

/-- The turns are enough. -/
theorem ends_parseXml (maxDepth : ℕ) (xml : JsString) :
    XmlState.Ends maxDepth { top := documentNode, rest := xml } (parseXml maxDepth xml) := by
  have hlower : ∀ s s' : XmlState, True → s.step maxDepth = .inl s' →
      True ∧ s'.rest.length < s.rest.length := fun s s' _ h => ⟨trivial, step_shorter h⟩
  obtain ⟨ending, hending⟩ : ∃ ending, run (XmlState.step · maxDepth) (xml.length + 1)
      { top := documentNode, rest := xml } = .inr ending :=
    exists_run_inr hlower trivial (Nat.lt_succ_self _)
  refine ⟨xml.length + 1, ?_⟩
  rw [parseXml, hending]

theorem ends_of_chain {s s' : XmlState} (h : ReflTransGen (Reads maxDepth) s s')
    {ending : Except XmlError Node} : s.Ends maxDepth ending ↔ s'.Ends maxDepth ending := by
  induction h using ReflTransGen.head_induction_on with
  | refl => rfl
  | head hfirst _ ih => exact hfirst.ends.trans ih

/-- `parseXml` accepts exactly the documents that have one root element and respect the limit. -/
theorem parseXml_eq_ok_iff {xml : JsString} {root : Node} :
    parseXml maxDepth xml = .ok root ↔ ∃ content : Content, content.WellFormed ∧
      (content.depth = 0 ∨ content.depth < maxDepth) ∧ xml = content.text ∧
        content.nodes = [root] := by
  constructor
  · intro h
    obtain ⟨n, hn⟩ := ends_parseXml maxDepth xml
    rw [h] at hn
    obtain ⟨content, hwell, hfits, htext, hroot⟩ := Finishes.of_run hn
    exact ⟨content, hwell, hfits, htext, hroot⟩
  · rintro ⟨content, hwell, hfits, rfl, hroot⟩
    have hreads := reads_content hwell documentNode [] [] false hfits
    rw [List.append_nil] at hreads
    have hending := (ends_of_chain hreads).mp (ends_parseXml maxDepth content.text)
    have hstep : XmlState.step ⟨documentNode.extend content, [], [],
        false || (([] : List Node).isEmpty && !content.nodes.isEmpty)⟩ maxDepth =
          .inr (.ok root) := by
      rw [XmlState.step, if_pos rfl, XmlState.finish, hroot]
      simp only [Node.extend, hroot]
      rfl
    exact (endsWith_of_inr hstep).mp hending

end

/-! ## The decoder -/

/-- The source is the text of this document. -/
structure Document (decoder : XmlDecoder) (source : XmlSource) (content : Content) (root : Node) :
    Prop where
  text : bytesToXml decoder.maxBytes source = .ok content.text
  wellFormed : content.WellFormed
  depth : content.depth = 0 ∨ content.depth < decoder.maxDepth
  root : content.nodes = [root]

theorem readRoot_eq_ok_iff {decoder : XmlDecoder} {source : XmlSource} {root : Node} :
    decoder.readRoot source = .ok root ↔ ∃ content, Document decoder source content root := by
  rw [XmlDecoder.readRoot]
  constructor
  · intro h
    split at h
    case h_1 => cases h
    case h_2 xml hxml =>
      obtain ⟨content, hwell, hdepth, rfl, hroot⟩ := parseXml_eq_ok_iff.mp h
      exact ⟨content, hxml, hwell, hdepth, hroot⟩
  · rintro ⟨content, hxml, hwell, hdepth, hroot⟩
    rw [hxml]
    exact parseXml_eq_ok_iff.mpr ⟨content, hwell, hdepth, rfl, hroot⟩

/-- The decoder succeeds exactly for documents, and for an index that has a model. -/
theorem decoder_success_iff (decoder : XmlDecoder) (source : XmlSource) (repository : JsString)
    (models : List IndexedModel) (parentSites subsidiarySites : List JsString) :
    ((decoder.decodeModelIndex source repository).success = true ∧
        (decoder.decodeModelIndex source repository).models = models ↔
      models ≠ [] ∧ ∃ content root, Document decoder source content root ∧
        readModels repository root = models) ∧
    ((decoder.decodeSite source repository).success = true ∧
        (decoder.decodeSite source repository).parentSites = parentSites ∧
        (decoder.decodeSite source repository).subsidiarySites = subsidiarySites ↔
      ∃ content root, Document decoder source content root ∧
        linksBelow "parentSite" root = parentSites ∧
        linksBelow "subsidiarySite" root = subsidiarySites) := by
  rw [XmlDecoder.decodeModelIndex, XmlDecoder.decodeSite]
  cases hread : decoder.readRoot source with
  | error e =>
    have hnone : ∀ content root, ¬ Document decoder source content root := by
      intro content root h
      have hroot := readRoot_eq_ok_iff.mpr ⟨content, h⟩
      rw [hread] at hroot
      cases hroot
    simp [hnone]
  | ok root =>
    obtain ⟨content, hdocument⟩ := readRoot_eq_ok_iff.mp hread
    have hsame : ∀ content' root', Document decoder source content' root' → root' = root := by
      intro content' root' h
      have hroot := readRoot_eq_ok_iff.mpr ⟨content', h⟩
      rw [hread] at hroot
      exact (Except.ok.inj hroot).symm
    constructor
    · constructor
      · rintro ⟨hsuccess, rfl⟩
        exact ⟨by simpa using hsuccess, content, root, hdocument, rfl⟩
      · rintro ⟨hne, content', root', h, rfl⟩
        rw [hsame content' root' h] at hne ⊢
        simpa using hne
    · constructor
      · rintro ⟨-, rfl, rfl⟩
        exact ⟨content, root, hdocument, rfl, rfl⟩
      · rintro ⟨content', root', h, rfl, rfl⟩
        rw [hsame content' root' h]
        exact ⟨rfl, rfl, rfl⟩

end Ilic.RepositoryCore
