import Ilic.Expressions.Builder
import Ilic.Expressions.Parser
import Ilic.Formatting.Formatter

/-! # Printing expressions

`write_expression` prints the expressions of generated models, `documentationExpression` those of
the documentation.  Neither prints parentheses around the operands of an operation, so that both
depend on no more than the tree that is left without the unary expressions that do nothing.
-/

namespace Ilic.Expressions
open Foundation Diagnostics
open Output (Name)

section
variable {α β : Type*}

mutual

def Expression.map (f : α → β) : Expression α → Expression β
  | .unary operation type subExpression => .unary operation type (subExpression.map f)
  | .compound operation type subExpressions => .compound operation type (mapAll f subExpressions)
  | .factor x type => .factor (f x) type

def Expression.mapAll (f : α → β) : List (Expression α) → List (Expression β)
  | [] => []
  | e :: rest => e.map f :: mapAll f rest

end

end

/-! ## Printed factors -/

/-- `write_expression` for constants, paths and parameters. -/
def writeFactor : FactorValue → Text
  | .constant .text value => '"' :: (value ++ ['"'])
  | .constant .enumeration value => '#' :: value
  | .constant _ value => value
  | .path first more => pathText (first :: more)
  | .runtimeParam (some name) => "PARAMETER ".toList ++ name.val
  | .runtimeParam none => "PARAMETER ???".toList

theorem writeFactor_path (first : PathEl) (more : List PathEl) :
    writeFactor (.path first more) = pathText (first :: more) := rfl

theorem writeFactor_some (name : Name) :
    writeFactor (.runtimeParam (some name)) = "PARAMETER ".toList ++ name.val := rfl

theorem writeFactor_none : writeFactor (.runtimeParam none) = "PARAMETER ???".toList := rfl

/-- The parts between the arrows. -/
def splitArrows : Text → List Text
  | [] => [[]]
  | '-' :: '>' :: rest => [] :: splitArrows rest
  | c :: rest =>
    match splitArrows rest with
    | part :: parts => (c :: part) :: parts
    | [] => [[c]]

def normalizePath (value : Text) : Text :=
  (splitArrows value).foldl (fun result part =>
    if Formatting.trim part ≠ [] then
      (if result ≠ [] then result ++ ['-', '>'] else result) ++ Formatting.trim part
    else result) []

/-- The names of the elements, which are tried if there is no text, are left out: a path that was
parsed has a text. -/
def documentationPath (first : PathEl) (more : List PathEl) : Text :=
  let parsed := normalizePath (pathText (first :: more))
  if parsed ≠ [] then parsed else "[Pfad nicht darstellbar]".toList

/-- `documentationExpression` for constants, paths and parameters. -/
def documentationFactor : FactorValue → Text
  | .constant .text value => '"' :: (value ++ ['"'])
  | .constant .enumeration value => '#' :: value
  | .constant _ value => value
  | .path first more => documentationPath first more
  | .runtimeParam (some name) => "PARAMETER ".toList ++ name.val
  | .runtimeParam none => "PARAMETER ???".toList

/-! ## Printed operations -/

/-- What `write_expression` prints between the operands: nothing for `Plus` and `Minus`. -/
def writeOperation : CompoundOperation → Text
  | .implication => " -> ".toList
  | .and => " AND ".toList
  | .or => " OR ".toList
  | .mult => " * ".toList
  | .div => " / ".toList
  | .relationEqual => " == ".toList
  | .relationNotEqual => " != ".toList
  | .relationLessOrEqual => " <= ".toList
  | .relationGreaterOrEqual => " >= ".toList
  | .relationLess => " < ".toList
  | .relationGreater => " > ".toList
  | .plus | .minus => []

def documentationOperation : CompoundOperation → Text
  | .implication => " -> ".toList
  | .and => " AND ".toList
  | .or => " OR ".toList
  | .plus => " + ".toList
  | .minus => " - ".toList
  | .mult => " * ".toList
  | .div => " / ".toList
  | .relationEqual => " == ".toList
  | .relationNotEqual => " != ".toList
  | .relationLessOrEqual => " <= ".toList
  | .relationGreaterOrEqual => " >= ".toList
  | .relationLess => " < ".toList
  | .relationGreater => " > ".toList

def UnaryOperation.opening : UnaryOperation → Text
  | not => "NOT(".toList
  | defined => "DEFINED(".toList
  | none => []

mutual

def writeExpression : Expression FactorValue → Text
  | .factor x _ => writeFactor x
  | .unary operation _ subExpression =>
    operation.opening ++ (writeExpression subExpression ++
      if operation ≠ .none then [')'] else [])
  | .compound operation _ subExpressions => writeExpressions operation true subExpressions

def writeExpressions (operation : CompoundOperation) : Bool → List (Expression FactorValue) → Text
  | _, [] => []
  | first, s :: rest => (if first then [] else writeOperation operation) ++
      (writeExpression s ++ writeExpressions operation false rest)

end

mutual

def documentationExpression : Expression FactorValue → Text
  | .factor x _ => documentationFactor x
  | .unary operation _ subExpression =>
    if operation.opening = [] then documentationExpression subExpression
    else operation.opening ++ (documentationExpression subExpression ++ [')'])
  | .compound operation _ subExpressions =>
    let result := documentationExpressions operation true subExpressions
    if result = [] then "[Bedingung nicht darstellbar]".toList else result

def documentationExpressions (operation : CompoundOperation) :
    Bool → List (Expression FactorValue) → Text
  | _, [] => []
  | first, part :: rest => (if first then [] else documentationOperation operation) ++
      (documentationExpression part ++ documentationExpressions operation false rest)

end

/-! ## Trees without the unary expressions that do nothing -/

/-- An expression up to `UnaryExpr::None`.  Its types follow from the operations and the
factors. -/
inductive Tree (α : Type*) where
  | factor (x : α)
  | not (t : Tree α)
  | defined (t : Tree α)
  | compound (operation : CompoundOperation) (ts : List (Tree α))

section
variable {α : Type*}

mutual

def Expression.tree : Expression α → Tree α
  | .unary .not _ subExpression => .not subExpression.tree
  | .unary .defined _ subExpression => .defined subExpression.tree
  | .unary .none _ subExpression => subExpression.tree
  | .compound operation _ subExpressions => .compound operation (trees subExpressions)
  | .factor x _ => .factor x

def Expression.trees : List (Expression α) → List (Tree α)
  | [] => []
  | e :: rest => e.tree :: trees rest

end

end

/-- Between the operands, with or without plus and minus. -/
def separator (signs : Bool) (operation : CompoundOperation) : Text :=
  if signs then documentationOperation operation else writeOperation operation

mutual

def Tree.print (signs : Bool) : Tree FactorValue → Text
  | .factor x => writeFactor x
  | .not t => "NOT(".toList ++ (t.print signs ++ [')'])
  | .defined t => "DEFINED(".toList ++ (t.print signs ++ [')'])
  | .compound operation ts => printAll signs operation true ts

def Tree.printAll (signs : Bool) (operation : CompoundOperation) :
    Bool → List (Tree FactorValue) → Text
  | _, [] => []
  | first, t :: rest => (if first then [] else separator signs operation) ++
      (t.print signs ++ printAll signs operation false rest)

end

section
variable (signs : Bool) (t : Tree FactorValue) (ts : List (Tree FactorValue))

theorem Tree.print_not : (Tree.not t).print signs = "NOT(".toList ++ (t.print signs ++ [')']) := rfl

theorem Tree.print_defined :
    (Tree.defined t).print signs = "DEFINED(".toList ++ (t.print signs ++ [')']) := rfl

theorem Tree.print_compound (operation : CompoundOperation) :
    (Tree.compound operation (t :: ts)).print signs =
      t.print signs ++ printAll signs operation false ts := rfl

theorem Tree.printAll_cons (operation : CompoundOperation) :
    printAll signs operation false (t :: ts) =
      separator signs operation ++ (t.print signs ++ printAll signs operation false ts) := rfl

end

mutual

theorem writeExpression_eq : ∀ e : Expression FactorValue, writeExpression e = e.tree.print false
  | .factor x _ => rfl
  | .unary .not _ e => by
    rw [writeExpression, writeExpression_eq e]
    rfl
  | .unary .defined _ e => by
    rw [writeExpression, writeExpression_eq e]
    rfl
  | .unary .none _ e => by
    rw [writeExpression, writeExpression_eq e, Expression.tree]
    exact List.append_nil _
  | .compound operation _ es => writeExpressions_eq operation true es

theorem writeExpressions_eq (operation : CompoundOperation) : ∀ (first : Bool)
    (es : List (Expression FactorValue)), writeExpressions operation first es =
      Tree.printAll false operation first (Expression.trees es)
  | _, [] => rfl
  | first, e :: es => by
    rw [writeExpressions, Expression.trees, Tree.printAll, writeExpression_eq e,
      writeExpressions_eq operation false es]
    rfl

end

/-! ## Paths are normal -/

/-- A character of the element of a path. -/
def isPathChar (c : Char) : Bool := Output.isPart c || c = '\\' || c = '[' || c = ']'

theorem isPathChar_name (n : Name) : n.val.all isPathChar = true := by
  have hname := n.property
  cases hword : n.val with
  | nil => rfl
  | cons c rest =>
    rw [hword] at hname
    apply List.all_eq_true.mpr
    intro d hd
    have hpart : Output.isPart d = true := by
      rcases List.mem_cons.mp hd with rfl | hd
      · rw [Output.isPart, Char.isAlphanum, hname.1]
        rfl
      · exact List.all_eq_true.mp hname.2.1 d hd
    rw [isPathChar, hpart]
    rfl

theorem isPathChar_posNumber (n : PosNumber) : n.val.all isPathChar = true := by
  have hnumber := n.property
  cases htext : n.val with
  | nil => rfl
  | cons c rest =>
    rw [htext, IsPosNumber, posNumberTail] at hnumber
    split_ifs at hnumber with hc
    have htake := List.takeWhile_append_dropWhile (p := Char.isDigit) (l := rest)
    rw [show rest.dropWhile Char.isDigit = [] from Option.some.inj hnumber,
      List.append_nil] at htake
    apply List.all_eq_true.mpr
    intro d hd
    have hdigit : d.isDigit = true := by
      rcases List.mem_cons.mp hd with rfl | hd
      · exact hc
      · rw [← htake] at hd
        exact List.mem_takeWhile_imp hd
    simp [isPathChar, Output.isPart, Char.isAlphanum, hdigit]

theorem isPathChar_keyword (k : Keyword) : k.text.all isPathChar = true := by
  cases k <;> rfl

theorem isPathChar_index (index : Option PathIndex) :
    (textOf (indexTokens index)).all isPathChar = true := by
  cases index with
  | none => rfl
  | some index =>
    have htoken : index.token.text.all isPathChar = true := by
      cases index with
      | first => rfl
      | last => rfl
      | axislistindex n => exact isPathChar_posNumber n
      | associationname n => exact isPathChar_name n
    rw [indexTokens, textOf_cons, textOf_cons, textOf_cons, List.all_append, List.all_append,
      htoken]
    rfl

theorem isPathChar_text (el : PathEl) : (textOf el.tokens).all isPathChar = true := by
  have hbackslash (backslash : Bool) :
      (textOf (backslashTokens backslash)).all isPathChar = true := by
    cases backslash <;> rfl
  cases el with
  | keyword k =>
    rw [PathEl.tokens, textOf_cons, textOf_nil, List.append_nil]
    exact isPathChar_keyword k.val
  | name backslash n index =>
    rw [PathEl.tokens, textOf_append, textOf_cons, List.all_append, List.all_append, hbackslash,
      isPathChar_index, Bool.true_and, Bool.and_true]
    exact isPathChar_name n
  | aggregates backslash =>
    rw [PathEl.tokens, textOf_append, List.all_append, hbackslash]
    rfl

theorem not_isSpace_of_isPathChar {c : Char} (h : isPathChar c = true) : ¬ isSpace c = true := by
  intro hspace
  have hcode : c.toNat = 32 ∨ c.toNat = 9 ∨ c.toNat = 10 ∨ c.toNat = 11 ∨ c.toNat = 12 ∨
      c.toNat = 13 := by
    simp only [isSpace, Bool.or_eq_true, Bool.and_eq_true, decide_eq_true_eq] at hspace
    rcases hspace with rfl | ⟨hfrom, hto⟩
    · exact Or.inl rfl
    · omega
  rw [← Char.ofNat_toNat c] at h
  rcases hcode with hc | hc | hc | hc | hc | hc <;> rw [hc] at h <;> exact absurd h (by decide)

theorem trim_pathText (el : PathEl) :
    Formatting.trim (textOf el.tokens) = textOf el.tokens := by
  have hspace : ∀ c ∈ textOf el.tokens, ¬ isSpace c = true := fun c hc =>
    not_isSpace_of_isPathChar (List.all_eq_true.mp (isPathChar_text el) c hc)
  exact Stripped.strip_eq ⟨fun c hc => hspace c (List.mem_of_mem_head? hc),
    fun c hc => hspace c (List.mem_of_getLast? hc)⟩

theorem splitArrows_append {part : Text} (hpart : '-' ∉ part) (rest : Text) :
    splitArrows (part ++ '-' :: '>' :: rest) = part :: splitArrows rest := by
  induction part with
  | nil => rfl
  | cons c part ih =>
    have hc : c ≠ '-' := fun hc => hpart (hc ▸ List.mem_cons_self)
    rw [List.cons_append, splitArrows, ih fun hmem => hpart (List.mem_cons_of_mem c hmem)]
    intro later hc' _
    exact hc hc'

theorem splitArrows_part {part : Text} (hpart : '-' ∉ part) : splitArrows part = [part] := by
  induction part with
  | nil => rfl
  | cons c part ih =>
    have hc : c ≠ '-' := fun hc => hpart (hc ▸ List.mem_cons_self)
    rw [splitArrows, ih fun hmem => hpart (List.mem_cons_of_mem c hmem)]
    intro later hc' _
    exact hc hc'

theorem splitArrows_pathText (first : PathEl) (more : List PathEl) :
    splitArrows (textOf (pathTokens first more)) =
      (first :: more).map fun el => textOf el.tokens := by
  have hminus (el : PathEl) : '-' ∉ textOf el.tokens := by
    intro hmem
    have hpath := List.all_eq_true.mp (isPathChar_text el) '-' hmem
    revert hpath
    decide
  induction more generalizing first with
  | nil =>
    rw [pathTokens, List.flatMap_nil, List.append_nil]
    exact splitArrows_part (hminus first)
  | cons el more ih =>
    have htext : textOf (pathTokens first (el :: more)) =
        textOf first.tokens ++ '-' :: '>' :: textOf (pathTokens el more) := by
      rw [pathTokens, List.flatMap_cons, textOf_append, List.cons_append, textOf_cons]
      rfl
    rw [htext, splitArrows_append (hminus first), ih el]
    rfl

/-- The text of a path that was parsed is normal. -/
theorem normalizePath_pathText (first : PathEl) (more : List PathEl) :
    normalizePath (pathText (first :: more)) = pathText (first :: more) := by
  have hloop : ∀ (elements : List PathEl) (result : Text),
      (elements.map fun el => textOf el.tokens).foldl (fun result part =>
        if Formatting.trim part ≠ [] then
          (if result ≠ [] then result ++ ['-', '>'] else result) ++ Formatting.trim part
        else result) result =
      elements.foldl (fun path p => (if path ≠ [] then path ++ ['-', '>'] else path) ++
        textOf p.tokens) result := by
    intro elements
    induction elements with
    | nil => exact fun _ => rfl
    | cons el elements ih =>
      intro result
      rw [List.map_cons, List.foldl_cons, List.foldl_cons, trim_pathText, if_pos el.text_ne_nil, ih]
  conv_lhs => rw [pathText_cons]
  rw [normalizePath, splitArrows_pathText, hloop]
  rfl

theorem pathText_ne_nil (first : PathEl) (more : List PathEl) : pathText (first :: more) ≠ [] := by
  rw [pathText_cons, pathTokens, textOf_append]
  exact List.append_ne_nil_of_left_ne_nil first.text_ne_nil _

theorem documentationFactor_eq (x : FactorValue) : documentationFactor x = writeFactor x := by
  cases x with
  | constant kind value => cases kind <;> rfl
  | path first more =>
    have hparsed := normalizePath_pathText first more
    have hne : normalizePath (pathText (first :: more)) ≠ [] := by
      rw [hparsed]
      exact pathText_ne_nil first more
    exact (if_pos hne).trans hparsed
  | runtimeParam name => cases name <;> rfl

end Ilic.Expressions
