import Ilic.Output.EnumTokens

/-! # Enumerations as they are printed

`write_enumtype` prints the elements of an enumeration with their nested elements, and FINAL
behind the elements or instead of them.  What is said of the enumeration as a whole is not
printed: the order, and FINAL at the top.
-/

namespace Ilic.Output
open Foundation.Scanner
open Semantics (EnumNode)

/-- `ident` of the text writer. -/
def ident (nestLevel : ℕ) : Text := List.replicate (3 * nestLevel) ' '

/-- What stands behind the nested elements. -/
def writeEnd (nestLevel : ℕ) (final : Bool) : Text :=
  (if final then ":FINAL".toList else []) ++ ('\n' :: (ident nestLevel ++ [')']))

mutual

def writeEnumNode (nestLevel : ℕ) : EnumNode → Text
  | .mk name final node =>
    ident nestLevel ++ (name ++ (writeEnumNodes (nestLevel + 1) " (\n".toList node ++
      if node.isEmpty then (if final then "(FINAL)".toList else []) else writeEnd nestLevel final))

/-- The loop over the nested elements, with what stands in front of the next one. -/
def writeEnumNodes (nestLevel : ℕ) (separator : Text) : List EnumNode → Text
  | [] => []
  | nn :: rest => separator ++ (writeEnumNode nestLevel nn ++
      writeEnumNodes nestLevel ",\n".toList rest)

end

def EnumNode.node : EnumNode → List EnumNode
  | .mk _ _ node => node

def EnumNode.final : EnumNode → Bool
  | .mk _ final _ => final

/-- `write_enumtype` for the type of this name. -/
def writeEnumType (nestLevel : ℕ) (name : Text) (t : EnumType) : Text :=
  if name = "BOOLEAN".toList then "BOOLEAN".toList
  else if name = "HALIGNMENT".toList then "HALIGNMENT".toList
  else if name = "VALIGNMENT".toList then "VALIGNMENT".toList
  else "(\n".toList ++ (writeEnumNodes (nestLevel + 1) [] (EnumNode.node t.topNode) ++
    ('\n' :: (ident nestLevel ++ [')'])))

/-! ## The tokens of a parse tree -/

def nameTokens (first : Name) (more : List Name) : List Token :=
  .name first :: more.flatMap fun name => [.dot, .name name]

def endTokens (colonFinal : Bool) : List Token :=
  (if colonFinal then [.colon, .final] else []) ++ [.rparen]

mutual

def elementTokens : EnumElementContext → List Token
  | .leaf first more => nameTokens first more
  | .final first more => nameTokens first more ++ [.lparen, .final, .rparen]
  | .node first more element elements colonFinal => nameTokens first more ++
      .lparen :: (elementTokens element ++ (elementsTokens elements ++ endTokens colonFinal))

def elementsTokens : List EnumElementContext → List Token
  | [] => []
  | element :: elements => .comma :: (elementTokens element ++ elementsTokens elements)

end

/-! ## Parsing the tokens of a tree -/

/-- No name of the element in front goes on here, and no nested enumeration begins. -/
def Closes : List Token → Prop
  | .dot :: _ | .lparen :: _ => False
  | _ => True

theorem parseNames_tokens (names : List Name) {rest : List Token}
    (h : ∀ later, rest ≠ .dot :: later) :
    parseNames ((names.flatMap fun name => [.dot, .name name]) ++ rest) = some (names, rest) := by
  induction names with
  | nil =>
    rw [List.flatMap_nil, List.nil_append, parseNames.eq_def]
    split
    · exact absurd rfl (h _)
    · exact absurd rfl (h _)
    · rfl
  | cons name names ih =>
    rw [List.flatMap_cons, List.append_assoc, List.cons_append, List.cons_append, parseNames,
      List.nil_append, ih]
    rfl

theorem elementTokens_eq_cons (element : EnumElementContext) :
    ∃ first later, elementTokens element = .name first :: later := by
  cases element <;> rw [elementTokens, nameTokens] <;> exact ⟨_, _, rfl⟩

theorem parseEnd_tokens (colonFinal : Bool) (rest : List Token) :
    parseEnd (endTokens colonFinal ++ rest) = some (colonFinal, rest) := by
  cases colonFinal <;> rfl

theorem closes_end (colonFinal : Bool) (rest : List Token) :
    Closes (endTokens colonFinal ++ rest) := by
  cases colonFinal <;> trivial

theorem closes_elements (elements : List EnumElementContext) {rest : List Token}
    (h : Closes rest) : Closes (elementsTokens elements ++ rest) := by
  cases elements with
  | nil => exact h
  | cons element elements => trivial

section
variable {fuel : ℕ} {first : Name} {more : List Name} {rest : List Token}

theorem parseElement_leaf (h : Closes rest) :
    parseElement (fuel + 1) (nameTokens first more ++ rest) = some (.leaf first more, rest) := by
  have hdot : ∀ later, rest ≠ .dot :: later := by
    rintro later rfl
    exact h
  rw [nameTokens, List.cons_append, parseElement, parseNames_tokens more hdot]
  cases rest with
  | nil => rfl
  | cons t rest =>
    cases t
    case lparen => exact h.elim
    all_goals rfl

theorem parseElement_final :
    parseElement (fuel + 1) (nameTokens first more ++ .lparen :: .final :: .rparen :: rest) =
      some (.final first more, rest) := by
  rw [nameTokens, List.cons_append, parseElement, parseNames_tokens more (fun _ h => by cases h)]

theorem parseElement_node {inner : Name} :
    parseElement (fuel + 1) (nameTokens first more ++ .lparen :: .name inner :: rest) = (do
      let (element, rest) ← parseElement fuel (.name inner :: rest)
      let (elements, rest) ← parseElements fuel rest
      let (colonFinal, rest) ← parseEnd rest
      return (.node first more element elements colonFinal, rest)) := by
  rw [nameTokens, List.cons_append, parseElement, parseNames_tokens more (fun _ h => by cases h)]

end

theorem length_nameTokens (first : Name) (more : List Name) :
    0 < (nameTokens first more).length := Nat.succ_pos _

mutual

/-- The parser reads an element back from its tokens, whatever stands behind them. -/
theorem parseElement_tokens : ∀ (element : EnumElementContext) (fuel : ℕ) (rest : List Token),
    (elementTokens element).length ≤ fuel → Closes rest →
      parseElement fuel (elementTokens element ++ rest) = some (element, rest)
  | .leaf first more, 0, _, hfuel, _ => by
    have hpos := length_nameTokens first more
    rw [elementTokens] at hfuel
    omega
  | .leaf first more, fuel + 1, rest, _, hrest => by
    rw [elementTokens]
    exact parseElement_leaf hrest
  | .final first more, 0, _, hfuel, _ => by
    rw [elementTokens, List.length_append] at hfuel
    simp at hfuel
  | .final first more, fuel + 1, rest, _, _ => by
    rw [elementTokens, List.append_assoc]
    exact parseElement_final
  | .node first more element elements colonFinal, 0, _, hfuel, _ => by
    rw [elementTokens, List.length_append] at hfuel
    simp at hfuel
  | .node first more element elements colonFinal, fuel + 1, rest, hfuel, _ => by
    have hpos := length_nameTokens first more
    simp only [elementTokens, List.length_append, List.length_cons] at hfuel
    obtain ⟨inner, later, hinner⟩ := elementTokens_eq_cons element
    have hfirst := parseElement_tokens element fuel
      (elementsTokens elements ++ (endTokens colonFinal ++ rest)) (by omega)
      (closes_elements elements (closes_end colonFinal rest))
    have hrest := parseElements_tokens elements fuel (endTokens colonFinal ++ rest) (by omega)
      (closes_end colonFinal rest) (by cases colonFinal <;> exact fun _ h => by cases h)
    rw [hinner, List.cons_append] at hfirst
    rw [elementTokens, List.append_assoc, List.cons_append, List.append_assoc, List.append_assoc,
      hinner, List.cons_append, parseElement_node, hfirst]
    simp only [Option.bind_eq_bind, Option.bind_some, hrest, parseEnd_tokens]
    rfl

theorem parseElements_tokens : ∀ (elements : List EnumElementContext) (fuel : ℕ)
    (rest : List Token), (elementsTokens elements).length ≤ fuel → Closes rest →
      (∀ later, rest ≠ .comma :: later) →
      parseElements fuel (elementsTokens elements ++ rest) = some (elements, rest)
  | [], fuel, rest, _, _, hcomma => by
    rw [elementsTokens, List.nil_append, parseElements.eq_def]
    split
    · exact absurd rfl (hcomma _)
    · exact absurd rfl (hcomma _)
    · rfl
  | element :: elements, 0, _, hfuel, _, _ => by
    rw [elementsTokens] at hfuel
    cases hfuel
  | element :: elements, fuel + 1, rest, hfuel, hrest, hcomma => by
    simp only [elementsTokens, List.length_append, List.length_cons] at hfuel
    have hfirst := parseElement_tokens element fuel (elementsTokens elements ++ rest) (by omega)
      (closes_elements elements hrest)
    have hlater := parseElements_tokens elements fuel rest (by omega) hrest hcomma
    rw [elementsTokens, List.cons_append, List.append_assoc, parseElements, hfirst]
    simp only [Option.bind_eq_bind, Option.bind_some, hlater]
    rfl

end

/-! ## Scanning what is printed -/

/-- No word goes on here. -/
def Breaks (rest : Text) : Prop := ∀ c later, rest = c :: later → isPart c = false

theorem breaks_cons {c : Char} (h : isPart c = false) (rest : Text) : Breaks (c :: rest) := by
  intro c' later heq
  cases heq
  exact h

theorem not_isBlank_of_isAlpha {c : Char} (h : c.isAlpha = true) : isBlank c = false := by
  have hne : ∀ d : Char, d.isAlpha = false → c ≠ d := by
    rintro d hd rfl
    rw [hd] at h
    cases h
  simp [isBlank, hne]

/-- Anything may stand behind a blank or a symbol. -/
def Anything (_ : Text) : Prop := True

theorem scans_blank {c : Char} (h : isBlank c = true) : lexer.Scans Anything [c] [] :=
  Reader.scans_of_read (t := none) fun _ _ => if_pos h

theorem scans_symbol {c : Char} {t : Token} (hblank : isBlank c = false)
    (halpha : c.isAlpha = false) (h : symbolToken c = some t) :
    lexer.Scans Anything [c] [t] := by
  refine Reader.scans_of_read (t := some t) fun rest _ => ?_
  show readToken (c :: rest) = some (some t, rest)
  rw [readToken, if_neg (by simp [hblank]), if_neg (by simp [halpha]), h, Option.map_some]

theorem scans_word {word : Text} {c : Char} {later : Text} (hword : word = c :: later)
    (halpha : c.isAlpha = true) (hlater : later.all isPart = true) :
    lexer.Scans Breaks word [wordToken word] := by
  subst hword
  refine Reader.scans_of_read (t := some (wordToken (c :: later))) fun rest hrest => ?_
  have hparts : ∀ d ∈ later, isPart d = true := List.all_eq_true.mp hlater
  have htake : (later ++ rest).takeWhile isPart = later := by
    rw [List.takeWhile_append_of_pos hparts]
    cases rest with
    | nil => simp
    | cons d rest => simp [hrest d rest rfl]
  have hdrop : (later ++ rest).dropWhile isPart = rest := by
    rw [List.dropWhile_append_of_pos hparts]
    cases rest with
    | nil => rfl
    | cons d rest => simp [hrest d rest rfl]
  show readToken (c :: (later ++ rest)) = _
  rw [readToken, if_neg (by simp [not_isBlank_of_isAlpha halpha]), if_pos halpha, htake, hdrop]

theorem wordToken_name (name : Name) : wordToken name.val = .name name := by
  obtain ⟨word, hname⟩ := name
  have hreserved : ∀ w ∈ reservedWords, word ≠ w := by
    rintro w hw rfl
    cases word with
    | nil => exact hname
    | cons c later => exact hname.2.2 hw
  have hin : ∀ (i : ℕ) (w : String), reservedWords[i]? = some w.toList → word ≠ w.toList :=
    fun i w hw => hreserved w.toList (List.mem_of_getElem? hw)
  -- the places of the words that have a token of their own
  rw [wordToken, if_neg (hin 30 _ rfl), if_neg (hin 75 _ rfl), if_neg (hin 67 _ rfl),
    if_neg (hin 24 _ rfl), if_neg (hin 25 _ rfl), if_neg (hin 26 _ rfl), dif_pos hname]

theorem scans_name (name : Name) : lexer.Scans Breaks name.val [.name name] := by
  have hname := name.property
  rw [← wordToken_name name]
  cases hword : name.val with
  | nil =>
    rw [hword] at hname
    exact hname.elim
  | cons c later =>
    rw [hword] at hname
    exact scans_word rfl hname.1 hname.2.1

theorem scans_ident (n : ℕ) : lexer.Scans Anything (ident n) [] := by
  rw [ident]
  induction 3 * n with
  | zero => exact Reader.scans_nil
  | succ n ih => exact (scans_blank rfl).append ih fun _ _ => trivial

/-! ## The names of an element -/

theorem foldl_elementName (names : List Name) {name : Text} (h : name ≠ []) :
    names.foldl (fun name nn => if name = [] then nn.val else name ++ ".".toList ++ nn.val) name =
      name ++ names.flatMap fun nn => '.' :: nn.val := by
  induction names generalizing name with
  | nil => simp
  | cons nn names ih =>
    have hne : name ++ ".".toList ++ nn.val ≠ [] := by simp [h]
    rw [List.foldl_cons, if_neg h, ih hne, List.flatMap_cons]
    simp

theorem Name.ne_nil (name : Name) : name.val ≠ [] := by
  intro h
  have hname := name.property
  rw [h] at hname
  exact hname

theorem elementName_cons (first : Name) (more : List Name) :
    elementName (first :: more) = first.val ++ more.flatMap fun nn => '.' :: nn.val := by
  rw [elementName, List.foldl_cons, if_pos rfl, foldl_elementName more (Name.ne_nil first)]

theorem breaks_names (names : List Name) {rest : Text} (h : Breaks rest) :
    Breaks ((names.flatMap fun nn => '.' :: nn.val) ++ rest) := by
  cases names with
  | nil => exact h
  | cons nn names => exact breaks_cons rfl _

theorem scans_elementName (first : Name) (more : List Name) :
    lexer.Scans Breaks (elementName (first :: more)) (nameTokens first more) := by
  have hmore : lexer.Scans Breaks (more.flatMap fun nn => '.' :: nn.val)
      (more.flatMap fun name => [.dot, .name name]) := by
    induction more with
    | nil => exact Reader.scans_nil
    | cons nn more ih =>
      have hdot : lexer.Scans Anything ['.'] [.dot] := scans_symbol rfl rfl rfl
      have hname := (scans_name nn).append ih fun rest hrest => breaks_names more hrest
      exact hdot.append hname fun _ _ => trivial
  rw [elementName_cons]
  exact (scans_name first).append hmore fun rest hrest => breaks_names more hrest

/-! ## The elements -/

theorem scans_lparen : lexer.Scans Anything ['('] [.lparen] := scans_symbol rfl rfl rfl

theorem scans_rparen : lexer.Scans Anything [')'] [.rparen] := scans_symbol rfl rfl rfl

theorem scans_comma : lexer.Scans Anything [','] [.comma] := scans_symbol rfl rfl rfl

theorem scans_colon : lexer.Scans Anything [':'] [.colon] := scans_symbol rfl rfl rfl

theorem scans_lineEnd : lexer.Scans Anything ['\n'] [] := scans_blank rfl

theorem scans_final : lexer.Scans Breaks "FINAL".toList [.final] := scans_word rfl rfl (by decide)

theorem scans_closing (nestLevel : ℕ) :
    lexer.Scans Anything ('\n' :: (ident nestLevel ++ [')'])) [.rparen] :=
  scans_lineEnd.append ((scans_ident nestLevel).append scans_rparen fun _ _ => trivial)
    fun _ _ => trivial

theorem breaks_closing (nestLevel : ℕ) (rest : Text) :
    Breaks ('\n' :: (ident nestLevel ++ [')']) ++ rest) := breaks_cons rfl _

theorem scans_writeEnd (nestLevel : ℕ) (final : Bool) :
    lexer.Scans Anything (writeEnd nestLevel final) (endTokens final) := by
  cases final with
  | false => exact scans_closing nestLevel
  | true =>
    have hfinal := scans_final.append (scans_closing nestLevel) fun rest _ =>
      breaks_closing nestLevel rest
    exact scans_colon.append hfinal fun _ _ => trivial

theorem breaks_writeEnd (nestLevel : ℕ) (final : Bool) (rest : Text) :
    Breaks (writeEnd nestLevel final ++ rest) := by
  cases final <;> exact breaks_cons rfl _

theorem breaks_writeEnumNodes (nestLevel : ℕ) (node : List EnumNode) {rest : Text}
    (h : Breaks rest) : Breaks (writeEnumNodes nestLevel ",\n".toList node ++ rest) := by
  cases node with
  | nil => exact h
  | cons nn node =>
    rw [writeEnumNodes]
    exact breaks_cons rfl _

mutual

/-- The lexer makes of a printed element the tokens of its parse tree. -/
theorem scans_writeEnumNode : ∀ (element : EnumElementContext) (nestLevel : ℕ),
    lexer.Scans Breaks (writeEnumNode nestLevel (visitEnumElement element)) (elementTokens element)
  | .leaf first more, nestLevel => by
    have hname := (scans_ident nestLevel).append (scans_elementName first more) fun _ _ => trivial
    rw [visitEnumElement, writeEnumNode, writeEnumNodes, elementTokens]
    simpa using hname
  | .final first more, nestLevel => by
    have hfinal := scans_final.append scans_rparen fun rest _ => breaks_cons rfl rest
    have hparens := scans_lparen.append hfinal fun _ _ => trivial
    have hname := (scans_elementName first more).append hparens fun rest _ => breaks_cons rfl _
    have hall := (scans_ident nestLevel).append hname fun _ _ => trivial
    rw [visitEnumElement, writeEnumNode, writeEnumNodes, elementTokens]
    exact (by simpa using hall : lexer.Scans Anything _ _).weaken fun _ _ => trivial
  | .node first more element elements colonFinal, nestLevel => by
    have hopen := scans_lparen.append scans_lineEnd fun _ _ => trivial
    have hblank : lexer.Scans Anything [' '] [] := scans_blank rfl
    have hseparator := hblank.append hopen fun _ _ => trivial
    have hend := scans_writeEnd nestLevel colonFinal
    have hlater := (scans_writeEnumNodes elements (nestLevel + 1)).append hend
      fun rest _ => breaks_writeEnd nestLevel colonFinal rest
    have hnode := (scans_writeEnumNode element (nestLevel + 1)).append hlater fun rest _ => by
      rw [List.append_assoc]
      exact breaks_writeEnumNodes _ _ (breaks_writeEnd nestLevel colonFinal rest)
    have hname := (scans_elementName first more).append
      (hseparator.append hnode fun _ _ => trivial) fun rest _ => breaks_cons rfl _
    have hall := (scans_ident nestLevel).append hname fun _ _ => trivial
    rw [visitEnumElement, writeEnumNode, writeEnumNodes, elementTokens]
    exact (by simpa using hall : lexer.Scans Anything _ _).weaken fun _ _ => trivial

theorem scans_writeEnumNodes : ∀ (elements : List EnumElementContext) (nestLevel : ℕ),
    lexer.Scans Breaks (writeEnumNodes nestLevel ",\n".toList (visitEnumElements elements))
      (elementsTokens elements)
  | [], nestLevel => by
    rw [visitEnumElements, writeEnumNodes, elementsTokens]
    exact Reader.scans_nil
  | element :: elements, nestLevel => by
    have hseparator := scans_comma.append scans_lineEnd fun _ _ => trivial
    have hnode := (scans_writeEnumNode element nestLevel).append
      (scans_writeEnumNodes elements nestLevel) fun rest hrest =>
        breaks_writeEnumNodes nestLevel _ hrest
    rw [visitEnumElements, writeEnumNodes, elementsTokens]
    exact hseparator.append hnode fun _ _ => trivial

end

/-! ## The round trip -/

/-- The text of a type of this name is read as the same enumeration type. -/
def ReadsBack (predefined : Alignments) (nestLevel : ℕ) (name : Text) (t : EnumType) : Prop :=
  readEnumType predefined (writeEnumType nestLevel name t) = some t

/-- When nothing is lost: under the name of a predefined enumeration the type is that one, and
under every other name it says nothing of the enumeration as a whole. -/
def PrintedWhole (predefined : Alignments) (name : Text) (t : EnumType) : Prop :=
  if name = "BOOLEAN".toList then False
  else if name = "HALIGNMENT".toList then t = predefined.halignment
  else if name = "VALIGNMENT".toList then t = predefined.valignment
  else t.order = .unordered ∧ EnumNode.final t.topNode = false

theorem scan_boolean : lexer.scan "BOOLEAN".toList = some [.boolean] := rfl

theorem scan_halignment : lexer.scan "HALIGNMENT".toList = some [.halignment] := rfl

theorem scan_valignment : lexer.scan "VALIGNMENT".toList = some [.valignment] := rfl

theorem scan_elements (nestLevel : ℕ) (element : EnumElementContext)
    (elements : List EnumElementContext) :
    lexer.scan ("(\n".toList ++ (writeEnumNodes (nestLevel + 1) []
        (visitEnumElement element :: visitEnumElements elements) ++
          ('\n' :: (ident nestLevel ++ [')'])))) =
      some (.lparen :: (elementTokens element ++ (elementsTokens elements ++ [.rparen]))) := by
  have hopen := scans_lparen.append scans_lineEnd fun _ _ => trivial
  have hlater := (scans_writeEnumNodes elements (nestLevel + 1)).append (scans_closing nestLevel)
    fun rest _ => breaks_closing nestLevel rest
  have hnode := (scans_writeEnumNode element (nestLevel + 1)).append hlater fun rest _ => by
    rw [List.append_assoc]
    exact breaks_writeEnumNodes _ _ (breaks_closing nestLevel rest)
  have hall := hopen.append hnode fun _ _ => trivial
  rw [writeEnumNodes]
  exact (show lexer.Scans Anything _ _ by simpa using hall).scan_eq trivial

theorem parseType_elements (element : EnumElementContext) (elements : List EnumElementContext) :
    parseType (.lparen :: (elementTokens element ++ (elementsTokens elements ++ [.rparen]))) =
      some (.enumerationType ⟨.elements element elements false, .unordered⟩) := by
  obtain ⟨inner, later, hinner⟩ := elementTokens_eq_cons element
  generalize hfuel : (Token.lparen ::
    (elementTokens element ++ (elementsTokens elements ++ [.rparen]))).length = fuel
  have hlength := hfuel
  simp only [List.length_cons, List.length_append, List.length_nil] at hlength
  have hcloses : Closes [.rparen] := trivial
  have hfirst := parseElement_tokens element fuel (elementsTokens elements ++ [.rparen]) (by omega)
    (closes_elements elements hcloses)
  have hrest := parseElements_tokens elements fuel [.rparen] (by omega) hcloses
    fun _ h => by cases h
  rw [hinner, List.cons_append] at hfirst hfuel ⊢
  simp only [parseType, hfuel, parseEnumeration, hfirst, hrest, Option.bind_eq_bind,
    Option.bind_some, parseEnd, Option.pure_def]

theorem readEnumType_enumeration (predefined : Alignments) (nestLevel : ℕ) {name : Text}
    (hboolean : name ≠ "BOOLEAN".toList) (hhalignment : name ≠ "HALIGNMENT".toList)
    (hvalignment : name ≠ "VALIGNMENT".toList) (context : EnumerationTypeContext) :
    readEnumType predefined (writeEnumType nestLevel name (visitEnumerationType context)) =
      match context.enumeration with
      | .final => none
      | .elements element elements _ =>
        some (visitEnumerationType ⟨.elements element elements false, .unordered⟩) := by
  rw [writeEnumType, if_neg hboolean, if_neg hhalignment, if_neg hvalignment, readEnumType]
  obtain ⟨enumeration, order⟩ := context
  cases enumeration with
  | final =>
    have hopen := scans_lparen.append scans_lineEnd fun _ _ => trivial
    have hall := hopen.append (scans_closing nestLevel) fun _ _ => trivial
    have hscan := hall.scan_eq trivial
    show ((lexer.scan ("(\n".toList ++ (writeEnumNodes (nestLevel + 1) [] [] ++
      ('\n' :: (ident nestLevel ++ [')']))))).bind parseType).bind _ = _
    rw [writeEnumNodes, List.nil_append]
    simp only [List.cons_append, List.nil_append] at hscan
    rw [show "(\n".toList = ['(', '\n'] from rfl, List.cons_append, List.cons_append,
      List.nil_append, hscan]
    rfl
  | elements element elements colonFinal =>
    show ((lexer.scan ("(\n".toList ++ (writeEnumNodes (nestLevel + 1) []
      (visitEnumElement element :: visitEnumElements elements) ++
        ('\n' :: (ident nestLevel ++ [')']))))).bind parseType).bind _ = _
    rw [scan_elements, Option.bind_some, parseType_elements]
    rfl

/-- A printed enumeration type is read back as it was built exactly if nothing is lost. -/
theorem readsBack_iff (predefined : Alignments) (nestLevel : ℕ) (name : Text)
    (context : EnumerationTypeContext) :
    ReadsBack predefined nestLevel name (visitEnumerationType context) ↔
      PrintedWhole predefined name (visitEnumerationType context) := by
  rw [ReadsBack, PrintedWhole]
  split_ifs with hboolean hhalignment hvalignment
  · subst hboolean
    rw [writeEnumType, if_pos rfl, readEnumType, scan_boolean]
    exact iff_of_false (fun h => by cases h) id
  · subst hhalignment
    rw [writeEnumType, if_neg hboolean, if_pos rfl, readEnumType, scan_halignment]
    exact Option.some_inj.trans eq_comm
  · subst hvalignment
    rw [writeEnumType, if_neg hboolean, if_neg hhalignment, if_pos rfl, readEnumType,
      scan_valignment]
    exact Option.some_inj.trans eq_comm
  · rw [readEnumType_enumeration predefined nestLevel hboolean hhalignment hvalignment]
    obtain ⟨enumeration, order⟩ := context
    cases enumeration with
    | final => exact iff_of_false (fun h => by cases h) fun h => by cases h.2
    | elements element elements colonFinal =>
      simp [visitEnumerationType, EnumNode.final, eq_comm]

/-- The reserved words are written in capitals. -/
theorem not_reserved {c : Char} {later : Text} (hc : c.isUpper = false) :
    c :: later ∉ reservedWords := by
  have hall : (reservedWords.all fun word => word.head?.all Char.isUpper) = true := by decide
  intro hmem
  have hupper : c.isUpper = true := List.all_eq_true.mp hall _ hmem
  rw [hc] at hupper
  cases hupper

theorem isName_small : IsName "small".toList := ⟨by decide, by decide, not_reserved (by decide)⟩

theorem isName_large : IsName "large".toList := ⟨by decide, by decide, not_reserved (by decide)⟩

/-- `(small, large: FINAL) ORDERED`. -/
def sizes : EnumerationTypeContext where
  enumeration := .elements (.leaf ⟨"small".toList, isName_small⟩ [])
    [.leaf ⟨"large".toList, isName_large⟩ []] true
  order := .ordered

/-- An enumeration without nested elements. -/
def flatEnumType (order : Order) (names : List String) : EnumType where
  order := order
  topNode := .mk "TOP".toList false (names.map fun name => .mk name.toList false [])

def alignments : Alignments where
  halignment := flatEnumType .ordered ["Left", "Center", "Right"]
  valignment := flatEnumType .ordered ["Top", "Cap", "Half", "Base", "Bottom"]

/-- Neither the order nor FINAL is printed. -/
theorem sizes_lost :
    readEnumType alignments (writeEnumType 0 "Size".toList (visitEnumerationType sizes)) =
        some (flatEnumType .unordered ["small", "large"]) ∧
      ¬ ReadsBack alignments 0 "Size".toList (visitEnumerationType sizes) := by
  have hboolean : "Size".toList ≠ "BOOLEAN".toList := by decide
  have hread := readEnumType_enumeration alignments 0 hboolean (by decide) (by decide) sizes
  refine ⟨hread, fun hback => ?_⟩
  have horder : some Order.unordered = some Order.ordered :=
    congrArg (Option.map EnumType.order) (hread.symm.trans hback)
  cases horder

end Ilic.Output
