import Ilic.Expressions.Parser

/-! # Parsing operands

The parser takes exactly the tokens of an operand and reads every operand back from its tokens, as
long as no token behind it belongs to it.
-/

namespace Ilic.Expressions
open Output (Name)

/-! ## What may stand behind a tree -/

/-- The nesting of the rules from which on the token ends what is read. -/
def Token.level : Token → ℕ
  | symbol .rparen => 1
  | operator1 _ => 2
  | operator2 _ => 3
  | relation _ => 4
  | _ => 5

/-- No token of a deeper rule follows, so a rule of this level is done. -/
def After (level : ℕ) (ts : List Token) : Prop := ∀ t later, ts = t :: later → t.level ≤ level

theorem After.mono {level level' : ℕ} {ts : List Token} (h : After level ts)
    (hle : level ≤ level') : After level' ts :=
  fun t later heq => Nat.le_trans (h t later heq) hle

theorem after_nil (level : ℕ) : After level [] := fun _ _ h => by cases h

theorem after_cons {level : ℕ} {t : Token} (h : t.level ≤ level) (ts : List Token) :
    After level (t :: ts) := by
  intro t' later heq
  cases heq
  exact h

/-- A token inside of an operand does not stand behind it. -/
theorem After.head_ne {ts : List Token} (h : After 4 ts) {t : Token} (ht : t.level = 5)
    (later : List Token) : ts ≠ t :: later := by
  intro heq
  have hle := h t later heq
  omega

/-! ## Operands read back -/

section
variable {ts : List Token}

theorem parseIndex_tokens (index : Option PathIndex)
    (h : ∀ later, ts ≠ .symbol .lbrace :: later) :
    parseIndex (indexTokens index ++ ts) = some (index, ts) := by
  cases index with
  | none =>
    rw [indexTokens, List.nil_append]
    unfold parseIndex
    split <;> first | exact absurd rfl (h _) | rfl
  | some index => cases index <;> rfl

theorem parsePathEl_tokens (el : PathEl) (h : ∀ later, ts ≠ .symbol .lbrace :: later) :
    parsePathEl (el.tokens ++ ts) = some (el, ts) := by
  cases el with
  | keyword k =>
    rw [PathEl.tokens, List.cons_append, parsePathEl, dif_pos k.property]
    rfl
  | name backslash n index =>
    have href : parseObjectRef backslash (.name n :: (indexTokens index ++ ts)) =
        some (.name backslash n index, ts) := by
      rw [parseObjectRef, parseIndex_tokens index h]
      rfl
    cases backslash <;> exact href
  | aggregates backslash => cases backslash <;> rfl

/-- What stands behind a path is no further arrow. -/
theorem head_rarrow_ne (more : List PathEl) (h : After 4 ts) (later : List Token) :
    (more.flatMap fun el => Token.symbol .rarrow :: el.tokens) ++ ts ≠
      .symbol .lbrace :: later := by
  cases more with
  | nil => exact h.head_ne rfl later
  | cons el more =>
    intro heq
    cases heq

/-- The arrow in front of every element decides that the path goes on. -/
theorem parsePathEls_tokens (more : List PathEl) (h : After 4 ts) :
    ∀ fuel, more.length ≤ fuel → parsePathEls fuel
      ((more.flatMap fun el => .symbol .rarrow :: el.tokens) ++ ts) = some (more, ts) := by
  induction more with
  | nil =>
    intro fuel _
    rw [List.flatMap_nil, List.nil_append, parsePathEls.eq_def]
    split
    · exact absurd rfl (h.head_ne rfl _)
    · exact absurd rfl (h.head_ne rfl _)
    · rfl
  | cons el more ih =>
    intro fuel hfuel
    cases fuel with
    | zero => cases hfuel
    | succ fuel =>
      rw [List.flatMap_cons, List.append_assoc, List.cons_append, parsePathEls,
        parsePathEl_tokens el (head_rarrow_ne more h)]
      simp only [Option.bind_eq_bind, Option.bind_some, ih fuel (Nat.le_of_succ_le_succ hfuel)]
      rfl

/-- A dot in front of OTHERS does not belong to the names. -/
theorem parseDotNames_tokens (more : List Name)
    (h : ∀ n later, ts ≠ .symbol .dot :: .name n :: later) :
    parseDotNames (dotTokens more ++ ts) = (more, ts) := by
  induction more with
  | nil =>
    rw [dotTokens, List.flatMap_nil, List.nil_append, parseDotNames.eq_def]
    split
    · exact absurd rfl (h _ _)
    · rfl
  | cons n more ih =>
    rw [dotTokens] at ih ⊢
    rw [List.flatMap_cons, List.append_assoc, List.cons_append, List.cons_append, parseDotNames,
      List.nil_append, ih]

theorem parseDotOthers_tokens (dotOthers : Bool) (h : ∀ later, ts ≠ .symbol .dot :: later) :
    parseDotOthers (othersTokens dotOthers ++ ts) = (dotOthers, ts) := by
  cases dotOthers with
  | true => rfl
  | false =>
    rw [othersTokens, if_neg Bool.false_ne_true, List.nil_append, parseDotOthers.eq_def]
    split
    · exact absurd rfl (h _)
    · rfl

theorem parsePath_tokens (path : Path) (h : ∀ later, ts ≠ .symbol .dot :: later) :
    parsePath (path.tokens ++ ts) = some (path, ts) := by
  cases path with
  | predefined interlis k =>
    have hfrom : parsePathFrom interlis (.keyword k.val :: ts) =
        some (.predefined interlis k, ts) := by
      rw [parsePathFrom, dif_pos k.property]
    obtain ⟨k, hk⟩ := k
    cases interlis with
    | true => exact hfrom
    | false =>
      rw [← hfrom]
      cases k <;> first | rfl | cases hk
  | names interlis first more =>
    have hfrom : parsePathFrom interlis (.name first :: (dotTokens more ++ ts)) =
        some (.names interlis first more, ts) := by
      rw [parsePathFrom, parseDotNames_tokens more fun n later => h _]
    cases interlis <;> exact hfrom

/-- A bracket behind a number is its unit, since none may stand behind an operand. -/
theorem parseUnit_tokens (unitref : Option Path) (h : After 4 ts) :
    parseUnit (unitTokens unitref ++ ts) = some (unitref, ts) := by
  cases unitref with
  | none =>
    rw [unitTokens, List.nil_append, parseUnit.eq_def]
    split
    · exact absurd rfl (h.head_ne rfl _)
    · rfl
  | some unitref =>
    rw [unitTokens, List.cons_append, List.append_assoc, parseUnit,
      parsePath_tokens unitref fun later heq => by cases heq]
    rfl

theorem parseObjectPath_tokens (first : PathEl) (more : List PathEl) (h : After 4 ts) :
    parseObjectPath (pathTokens first more ++ ts) = some (.path first more, ts) := by
  have hlength : more.length ≤
      ((more.flatMap fun el => Token.symbol .rarrow :: el.tokens) ++ ts).length := by
    rw [List.length_append]
    apply Nat.le_add_right_of_le
    induction more with
    | nil => exact Nat.zero_le _
    | cons el more ih =>
      rw [List.flatMap_cons, List.length_append, List.length_cons, List.length_cons]
      omega
  rw [pathTokens, List.append_assoc, parseObjectPath,
    parsePathEl_tokens first (head_rarrow_ne more h)]
  simp only [Option.bind_eq_bind, Option.bind_some, parsePathEls_tokens more h _ hlength]
  rfl

/-- No other alternative of a factor begins with the element of a path. -/
theorem parseOperand_path (first : PathEl) (ts : List Token) :
    parseOperand (first.tokens ++ ts) = parseObjectPath (first.tokens ++ ts) := by
  cases first with
  | keyword k =>
    obtain ⟨k, hk⟩ := k
    cases k <;> first | rfl | cases hk
  | name backslash n index => cases backslash <;> rfl
  | aggregates backslash => cases backslash <;> rfl

/-- Every operand is read back from its tokens. -/
theorem parseOperand_tokens (x : Operand) (h : After 4 ts) :
    parseOperand (x.tokens ++ ts) = some (x, ts) := by
  cases x with
  | undefined => rfl
  | numericConst constant unitref =>
    have hunit := parseUnit_tokens unitref h
    have htoken : numericConst? constant.token = some constant := by
      cases constant <;> rfl
    rw [Operand.tokens, List.cons_append, parseOperand, htoken, hunit]
    rfl
  | textConst string => rfl
  | enumConst first more dotOthers =>
    have hnames : parseDotNames (dotTokens more ++ (othersTokens dotOthers ++ ts)) =
        (more, othersTokens dotOthers ++ ts) := by
      apply parseDotNames_tokens
      intro n later heq
      cases dotOthers with
      | true => cases heq
      | false => exact h.head_ne rfl _ heq
    have hothers := parseDotOthers_tokens dotOthers (h.head_ne (t := .symbol .dot) rfl)
    rw [Operand.tokens, List.cons_append, List.cons_append, List.append_assoc]
    show some (Operand.enumConst first _ _, _) = _
    rw [hnames, hothers]
  | others => rfl
  | path first more =>
    rw [← parseObjectPath_tokens first more h, Operand.tokens, pathTokens, List.append_assoc]
    exact parseOperand_path first _
  | parameter parampath =>
    have hpath := parsePath_tokens parampath (h.head_ne (t := .symbol .dot) rfl)
    show (parsePath (parampath.tokens ++ ts)).map _ = _
    rw [hpath]
    rfl

end

/-! ## The tokens of what was read -/

section
variable {ts rest : List Token}

theorem parseIndex_sound {index : Option PathIndex} (h : parseIndex ts = some (index, rest)) :
    ts = indexTokens index ++ rest := by
  unfold parseIndex at h
  split at h <;> cases h <;> rfl

/-- What an element is read from are its own tokens. -/
theorem parseObjectRef_sound {backslash : Bool} {el : PathEl}
    (h : parseObjectRef backslash ts = some (el, rest)) :
    backslashTokens backslash ++ ts = el.tokens ++ rest := by
  unfold parseObjectRef at h
  split at h
  · obtain ⟨⟨index, later⟩, hindex, heq⟩ := Option.map_eq_some_iff.mp h
    cases heq
    rw [parseIndex_sound hindex, PathEl.tokens, List.append_assoc, List.cons_append]
  · cases h
    rw [PathEl.tokens, List.append_assoc]
    rfl
  · cases h

theorem parsePathEl_sound {el : PathEl} (h : parsePathEl ts = some (el, rest)) :
    ts = el.tokens ++ rest := by
  unfold parsePathEl at h
  split at h
  · exact parseObjectRef_sound h
  · split_ifs at h
    · cases h
      rfl
    · exact parseObjectRef_sound h
  · exact parseObjectRef_sound h

theorem parsePathEls_sound {fuel : ℕ} {more : List PathEl}
    (h : parsePathEls fuel ts = some (more, rest)) :
    ts = (more.flatMap fun el => .symbol .rarrow :: el.tokens) ++ rest := by
  induction fuel generalizing ts more with
  | zero =>
    unfold parsePathEls at h
    split at h
    · rename_i heq
      cases heq
    · cases h
    · cases h
      rfl
  | succ fuel ih =>
    rw [parsePathEls.eq_def] at h
    split at h
    · obtain ⟨⟨el, ts'⟩, hel, h⟩ := Option.bind_eq_some_iff.mp h
      obtain ⟨⟨later, ts''⟩, hlater, h⟩ := Option.bind_eq_some_iff.mp h
      cases h
      rename_i heq _
      cases heq
      rw [parsePathEl_sound hel, ih hlater, List.flatMap_cons, List.append_assoc,
        List.cons_append]
    · cases h
    · cases h
      rfl

theorem parseDotNames_sound (ts : List Token) :
    ts = dotTokens (parseDotNames ts).1 ++ (parseDotNames ts).2 := by
  fun_induction parseDotNames ts with
  | case1 n ts ih =>
    rw [dotTokens] at ih ⊢
    rw [List.flatMap_cons, List.append_assoc, ← ih]
    rfl
  | case2 => rfl

theorem parseDotOthers_sound (ts : List Token) :
    ts = othersTokens (parseDotOthers ts).1 ++ (parseDotOthers ts).2 := by
  unfold parseDotOthers
  split <;> rfl

theorem parsePathFrom_sound {interlis : Bool} {path : Path}
    (h : parsePathFrom interlis ts = some (path, rest)) :
    interlisTokens interlis ++ ts = path.tokens ++ rest := by
  unfold parsePathFrom at h
  split at h
  · split_ifs at h
    cases h
    rw [Path.tokens, List.append_assoc]
    rfl
  · cases h
    rename_i n ts
    rw [Path.tokens, List.append_assoc, List.cons_append, ← parseDotNames_sound]
  · cases h

theorem parsePath_sound {path : Path} (h : parsePath ts = some (path, rest)) :
    ts = path.tokens ++ rest := by
  unfold parsePath at h
  split at h
  · exact parsePathFrom_sound h
  · exact parsePathFrom_sound h

theorem parseUnit_sound {unitref : Option Path} (h : parseUnit ts = some (unitref, rest)) :
    ts = unitTokens unitref ++ rest := by
  unfold parseUnit at h
  split at h
  · split at h
    · rename_i hpath
      cases h
      rw [parsePath_sound hpath, unitTokens, List.cons_append, List.append_assoc]
      rfl
    · cases h
  · cases h
    rfl

theorem numericConst?_sound {t : Token} {constant : NumericConst}
    (h : numericConst? t = some constant) : t = constant.token := by
  unfold numericConst? at h
  split at h <;> cases h <;> rfl

theorem parseObjectPath_sound {x : Operand} (h : parseObjectPath ts = some (x, rest)) :
    ts = x.tokens ++ rest := by
  obtain ⟨⟨first, ts'⟩, hfirst, h⟩ := Option.bind_eq_some_iff.mp h
  obtain ⟨⟨more, ts''⟩, hmore, h⟩ := Option.bind_eq_some_iff.mp h
  cases h
  rw [parsePathEl_sound hfirst, parsePathEls_sound hmore, Operand.tokens, pathTokens,
    List.append_assoc]

/-- The alternatives that begin with a keyword, a mark or a name. -/
theorem parseNonNumeric_sound {x : Operand} (h : parseNonNumeric ts = some (x, rest)) :
    ts = x.tokens ++ rest := by
  unfold parseNonNumeric at h
  split at h
  · cases h
    rfl
  · cases h
    rfl
  · cases h
    rfl
  · cases h
    rename_i n ts
    rw [Operand.tokens, List.cons_append, List.cons_append, List.append_assoc,
      ← parseDotOthers_sound, ← parseDotNames_sound]
  · obtain ⟨⟨path, later⟩, hpath, heq⟩ := Option.map_eq_some_iff.mp h
    cases heq
    rw [parsePath_sound hpath]
    rfl
  · exact parseObjectPath_sound h

/-- What an operand is read from are the tokens of what was read. -/
theorem parseOperand_sound {x : Operand} (h : parseOperand ts = some (x, rest)) :
    ts = x.tokens ++ rest := by
  cases ts with
  | nil => cases h
  | cons t ts =>
    rw [parseOperand] at h
    split at h
    · rename_i constant hconstant
      obtain ⟨⟨unitref, later⟩, hunit, heq⟩ := Option.map_eq_some_iff.mp h
      cases heq
      rw [numericConst?_sound hconstant, parseUnit_sound hunit]
      rfl
    · exact parseNonNumeric_sound h

end

/-! ## The tokens of a tree -/

/-- An inspection is not read beyond its first token. -/
def factorTokens : Factor Operand → List Token
  | .operand x => x.tokens
  | .inspection => [.other "INSPECTION".toList]

def notTokens (negated : Bool) : List Token := if negated then [.keyword .not] else []

mutual

/-- The tokens that stand for a tree, where every parenthesis belongs to the tree. -/
def Term1.tokens : Term1 Operand → List Token
  | .mk first rest => first.tokens ++ rest.tokens

def Rest1.tokens : Rest1 Operand → List Token
  | .nil => []
  | .cons operator term2 rest => .operator1 operator :: (term2.tokens ++ rest.tokens)

def Term2.tokens : Term2 Operand → List Token
  | .mk first rest => first.tokens ++ rest.tokens

def Rest2.tokens : Rest2 Operand → List Token
  | .nil => []
  | .cons operator term3 rest => .operator2 operator :: (term3.tokens ++ rest.tokens)

def Term3.tokens : Term3 Operand → List Token
  | .term t1 => t1.tokens
  | .relation t1 relation t2 => t1.tokens ++ .relation relation :: t2.tokens

def Term.tokens : Term Operand → List Token
  | .factor factor => factorTokens factor
  | .expression negated expression =>
    notTokens negated ++ .symbol .lparen :: (expression.tokens ++ [.symbol .rparen])
  | .defined factor =>
    .keyword .defined :: .symbol .lparen :: (factorTokens factor ++ [.symbol .rparen])

end

section
variable (ili24 : Bool)

mutual

/-- The language has the operators, and no factor is an inspection. -/
def Term1.Readable : Term1 Operand → Prop
  | .mk first rest => first.Readable ∧ rest.Readable

def Rest1.Readable : Rest1 Operand → Prop
  | .nil => True
  | .cons operator term2 rest =>
    operator.isAllowed ili24 = true ∧ term2.Readable ∧ rest.Readable

def Term2.Readable : Term2 Operand → Prop
  | .mk first rest => first.Readable ∧ rest.Readable

def Rest2.Readable : Rest2 Operand → Prop
  | .nil => True
  | .cons operator term3 rest =>
    operator.isAllowed ili24 = true ∧ term3.Readable ∧ rest.Readable

def Term3.Readable : Term3 Operand → Prop
  | .term t1 => t1.Readable
  | .relation t1 _ t2 => t1.Readable ∧ t2.Readable

def Term.Readable : Term Operand → Prop
  | .factor factor => factor.Built
  | .expression _ expression => expression.Readable
  | .defined factor => factor.Built

end

end

end Ilic.Expressions
