import Mathlib.Data.List.Infix
import Ilic.Foundation.Text

/-! # Pieces of a source

The lexer takes a source apart into comments, which it skips, into the tokens that may contain
anything between their ends (string literals, explanations and single escapes), and into other
characters.  A source has at most one such decomposition.  How the lexer cuts a run of other
characters is left open: it depends on the run alone.
-/

namespace Ilic.Formatting

/-! ## The rules of the lexer -/

def isHexDigit (c : Char) : Bool :=
  ('0' ≤ c && c ≤ '9') || ('a' ≤ c && c ≤ 'f') || ('A' ≤ c && c ≤ 'F')

/-- `ESC`. -/
inductive Escape : Text → Prop where
  | quote : Escape ['\\', '"']
  | backslash : Escape ['\\', '\\']
  | unicode {a b c d : Char} (h : ∀ digit ∈ [a, b, c, d], isHexDigit digit = true) :
      Escape ['\\', 'u', a, b, c, d]

/-- What stands behind the opening quote of a string literal, with its closing quote. -/
inductive StringTail : Text → Prop where
  | close : StringTail ['"']
  | escape {e rest : Text} (h : Escape e) (tail : StringTail rest) : StringTail (e ++ rest)
  | char {c : Char} {rest : Text} (hquote : c ≠ '"') (hbackslash : c ≠ '\\')
      (tail : StringTail rest) : StringTail (c :: rest)

/-- What stands behind the opening mark of a block comment, with its closing mark: inside of
it comments may be nested. -/
inductive CommentTail : Text → Prop where
  | close : CommentTail ['*', '/']
  | nested {inner rest : Text} (h : CommentTail inner) (tail : CommentTail rest) :
      CommentTail ('/' :: '*' :: (inner ++ rest))
  | char {c : Char} {rest : Text} (hopens : ¬ ['/', '*'] <+: c :: rest)
      (hcloses : ¬ ['*', '/'] <+: c :: rest) (tail : CommentTail rest) : CommentTail (c :: rest)

/-- What stands behind the opening mark of an explanation, with the first mark behind it. -/
inductive ExplanationTail : Text → Prop where
  | close : ExplanationTail ['/', '/']
  | char {c : Char} {rest : Text} (hcloses : ¬ ['/', '/'] <+: c :: rest)
      (tail : ExplanationTail rest) : ExplanationTail (c :: rest)

/-- `STRING`, `EXPLANATION` and `ESC`. -/
inductive Enclosed : Text → Prop where
  | literal {tail : Text} (h : StringTail tail) : Enclosed ('"' :: tail)
  | explanation {tail : Text} (h : ExplanationTail tail) : Enclosed ('/' :: '/' :: tail)
  | escape {e : Text} (h : Escape e) : Enclosed e

/-- A comment starts here. -/
def OpensComment (text : Text) : Prop := ['/', '*'] <+: text ∨ ['!', '!'] <+: text

instance (text : Text) : Decidable (OpensComment text) := inferInstanceAs (Decidable (_ ∨ _))

inductive Piece where
  | enclosed (token : Text)
  | lineComment (body : Text)
  | blockComment (tail : Text)
  | other (c : Char)
  deriving DecidableEq

/-- A source and its decomposition.  A line comment reaches to the end of its line, and a quote
that opens no literal is no other character.  A comment in which a mark opens and nothing closes
it has no decomposition: the wildcard of the lexer reads such a mark as text.  Block comments are
those of `ILI_BLOCKCOMMENT`, so `/**/` is one; where a `*/` follows it, `ILI_DOC` reads on. -/
inductive MadeOf : Text → List Piece → Prop where
  | nil : MadeOf [] []
  | enclosed {token rest : Text} {pieces : List Piece} (h : Enclosed token)
      (later : MadeOf rest pieces) : MadeOf (token ++ rest) (.enclosed token :: pieces)
  | lineComment {body rest : Text} {pieces : List Piece} (hbody : '\n' ∉ body)
      (hend : rest = [] ∨ rest.head? = some '\n') (later : MadeOf rest pieces) :
      MadeOf ('!' :: '!' :: (body ++ rest)) (.lineComment body :: pieces)
  | blockComment {tail rest : Text} {pieces : List Piece} (h : CommentTail tail)
      (later : MadeOf rest pieces) :
      MadeOf ('/' :: '*' :: (tail ++ rest)) (.blockComment tail :: pieces)
  | other {c : Char} {rest : Text} {pieces : List Piece} (hquote : c ≠ '"')
      (hcomment : ¬ OpensComment (c :: rest)) (htoken : ∀ token, Enclosed token →
        ¬ token <+: c :: rest) (later : MadeOf rest pieces) :
      MadeOf (c :: rest) (.other c :: pieces)

/-! ## Words -/

/-- White space, with the carriage return that belongs to no other token either. -/
def separates (c : Char) : Bool :=
  c = ' ' || c = '\t' || c = '\x0c' || c = '\r' || c = '\n'

/-- What the lexer makes significant tokens of: an enclosed token, or a run of other characters
that it cuts into tokens. -/
inductive Word where
  | enclosed (token : Text)
  | run (text : Text)
  deriving DecidableEq

def endRun (run : Text) : List Word := if run = [] then [] else [.run run]

/-- The words of a source behind a run that has begun. -/
def wordsFrom : Text → List Piece → List Word
  | run, [] => endRun run
  | run, .enclosed token :: pieces => endRun run ++ .enclosed token :: wordsFrom [] pieces
  | run, .lineComment _ :: pieces => endRun run ++ wordsFrom [] pieces
  | run, .blockComment _ :: pieces => endRun run ++ wordsFrom [] pieces
  | run, .other c :: pieces =>
    if separates c then endRun run ++ wordsFrom [] pieces else wordsFrom (run ++ [c]) pieces

def words (pieces : List Piece) : List Word := wordsFrom [] pieces

/-! ## One decomposition -/

theorem Escape.exists_cons {e : Text} (h : Escape e) : ∃ rest, e = '\\' :: rest := by
  cases h <;> exact ⟨_, rfl⟩

theorem Escape.unique {e e' rest rest' : Text} (h : Escape e) (h' : Escape e')
    (heq : e ++ rest = e' ++ rest') : e = e' ∧ rest = rest' := by
  cases h <;> cases h' <;> simp_all

theorem StringTail.unique {tail tail' rest rest' : Text} (h : StringTail tail)
    (h' : StringTail tail') (heq : tail ++ rest = tail' ++ rest') : tail = tail' := by
  induction h generalizing tail' rest rest' with
  | close =>
    cases h' with
    | close => rfl
    | escape he _ =>
      obtain ⟨e, rfl⟩ := he.exists_cons
      simp at heq
    | char hquote _ _ =>
      injection heq with hc _
      exact absurd hc.symm hquote
  | escape he _ ih =>
    cases h' with
    | close =>
      obtain ⟨e, rfl⟩ := he.exists_cons
      simp at heq
    | escape he' htail' =>
      rw [List.append_assoc, List.append_assoc] at heq
      obtain ⟨rfl, hrest⟩ := he.unique he' heq
      rw [ih htail' hrest]
    | char _ hbackslash _ =>
      obtain ⟨e, rfl⟩ := he.exists_cons
      injection heq with hc _
      exact absurd hc.symm hbackslash
  | char hquote hbackslash _ ih =>
    cases h' with
    | close =>
      injection heq with hc _
      exact absurd hc hquote
    | escape he _ =>
      obtain ⟨e, rfl⟩ := he.exists_cons
      injection heq with hc _
      exact absurd hc hbackslash
    | char _ _ htail' =>
      injection heq with hc hrest
      rw [hc, ih htail' hrest]

theorem CommentTail.two_le_length {tail : Text} (h : CommentTail tail) : 2 ≤ tail.length := by
  induction h with
  | close => exact le_rfl
  | nested _ _ _ _ => simp
  | char _ _ _ ih => exact Nat.le_succ_of_le ih

/-- The first two bytes of a tail are seen without what follows it. -/
theorem prefix_of_append_eq {a b : Char} {text rest other : Text} (hlength : 2 ≤ text.length)
    (h : text ++ rest = a :: b :: other) : [a, b] <+: text :=
  List.prefix_of_prefix_length_le ⟨other, h.symm⟩ (List.prefix_append text rest) hlength

theorem CommentTail.unique {tail tail' rest rest' : Text} (h : CommentTail tail)
    (h' : CommentTail tail') (heq : tail ++ rest = tail' ++ rest') : tail = tail' := by
  induction h generalizing tail' rest rest' with
  | close =>
    cases h' with
    | close => rfl
    | nested _ _ => simp at heq
    | char hopens hcloses htail' =>
      have hlength := (CommentTail.char hopens hcloses htail').two_le_length
      exact absurd (prefix_of_append_eq hlength heq.symm) hcloses
  | nested hinner htail ihinner ih =>
    cases h' with
    | close => simp at heq
    | nested hinner' htail' =>
      simp only [List.cons_append, List.append_assoc, List.cons.injEq, true_and] at heq
      obtain rfl := ihinner hinner' heq
      rw [ih htail' (List.append_cancel_left heq)]
    | char hopens hcloses htail' =>
      have hlength := (CommentTail.char hopens hcloses htail').two_le_length
      exact absurd (prefix_of_append_eq hlength heq.symm) hopens
  | char hopens hcloses htail ih =>
    have hlength := (CommentTail.char hopens hcloses htail).two_le_length
    cases h' with
    | close => exact absurd (prefix_of_append_eq hlength heq) hcloses
    | nested _ _ => exact absurd (prefix_of_append_eq hlength heq) hopens
    | char _ _ htail' =>
      injection heq with hc hrest
      rw [hc, ih htail' hrest]

theorem ExplanationTail.two_le_length {tail : Text} (h : ExplanationTail tail) :
    2 ≤ tail.length := by
  induction h with
  | close => exact le_rfl
  | char _ _ ih => exact Nat.le_succ_of_le ih

theorem ExplanationTail.unique {tail tail' rest rest' : Text} (h : ExplanationTail tail)
    (h' : ExplanationTail tail') (heq : tail ++ rest = tail' ++ rest') : tail = tail' := by
  induction h generalizing tail' rest rest' with
  | close =>
    cases h' with
    | close => rfl
    | char hcloses htail' =>
      have hlength := (ExplanationTail.char hcloses htail').two_le_length
      exact absurd (prefix_of_append_eq hlength heq.symm) hcloses
  | char hcloses htail ih =>
    cases h' with
    | close =>
      have hlength := (ExplanationTail.char hcloses htail).two_le_length
      exact absurd (prefix_of_append_eq hlength heq) hcloses
    | char _ htail' =>
      injection heq with hc hrest
      rw [hc, ih htail' hrest]

theorem Enclosed.unique {token token' rest rest' : Text} (h : Enclosed token)
    (h' : Enclosed token') (heq : token ++ rest = token' ++ rest') : token = token' := by
  cases h with
  | literal htail =>
    cases h' with
    | literal htail' =>
      injection heq with _ hrest
      rw [htail.unique htail' hrest]
    | explanation _ => simp at heq
    | escape he =>
      obtain ⟨e, rfl⟩ := he.exists_cons
      simp at heq
  | explanation htail =>
    cases h' with
    | literal _ => simp at heq
    | explanation htail' =>
      simp only [List.cons_append, List.cons.injEq, true_and] at heq
      rw [htail.unique htail' heq]
    | escape he =>
      obtain ⟨e, rfl⟩ := he.exists_cons
      simp at heq
  | escape he =>
    cases h' with
    | literal _ =>
      obtain ⟨e, rfl⟩ := he.exists_cons
      simp at heq
    | explanation _ =>
      obtain ⟨e, rfl⟩ := he.exists_cons
      simp at heq
    | escape he' => exact (he.unique he' heq).1

theorem Enclosed.ne_nil {token : Text} (h : Enclosed token) : token ≠ [] := by
  rintro rfl
  cases h with
  | escape he => cases he

/-- No token starts with a comment. -/
theorem Enclosed.not_opensComment {token : Text} (h : Enclosed token) (rest : Text) :
    ¬ OpensComment (token ++ rest) := by
  cases h with
  | literal _ => simp [OpensComment]
  | explanation _ => simp [OpensComment]
  | escape he =>
    obtain ⟨e, rfl⟩ := he.exists_cons
    simp [OpensComment]

theorem eq_of_append_eq_line {body body' rest rest' : Text} (hbody : '\n' ∉ body)
    (hbody' : '\n' ∉ body') (hend : rest = [] ∨ rest.head? = some '\n')
    (hend' : rest' = [] ∨ rest'.head? = some '\n') (heq : body ++ rest = body' ++ rest') :
    body = body' := by
  have hcut : ∀ body rest : Text, '\n' ∉ body → (rest = [] ∨ rest.head? = some '\n') →
      (body ++ rest).takeWhile (· ≠ '\n') = body := by
    intro body rest hbody hend
    have hfeed : ∀ c ∈ body, decide (c ≠ '\n') = true := by
      intro c hc
      exact decide_eq_true fun h => hbody (h ▸ hc)
    rw [List.takeWhile_append_of_pos hfeed]
    cases rest with
    | nil => simp
    | cons c rest =>
      obtain rfl : c = '\n' := by simpa using hend
      simp
  rw [← hcut body rest hbody hend, heq, hcut body' rest' hbody' hend']

namespace MadeOf
variable {text rest : Text} {pieces : List Piece}

theorem of_enclosed {token : Text} (htoken : Enclosed token) (h : MadeOf text pieces)
    (heq : text = token ++ rest) :
    ∃ later, pieces = .enclosed token :: later ∧ MadeOf rest later := by
  have hcomment := htoken.not_opensComment rest
  rw [← heq] at hcomment
  cases h with
  | nil => exact absurd (List.append_eq_nil_iff.mp heq.symm).1 htoken.ne_nil
  | @enclosed token' _ _ htoken' later =>
    obtain rfl := htoken'.unique htoken heq
    obtain rfl := List.append_cancel_left heq
    exact ⟨_, rfl, later⟩
  | lineComment _ _ _ => simp [OpensComment] at hcomment
  | blockComment _ _ => simp [OpensComment] at hcomment
  | other _ _ hnone _ => exact absurd ⟨rest, heq.symm⟩ (hnone token htoken)

theorem of_lineComment {body : Text} (hbody : '\n' ∉ body)
    (hend : rest = [] ∨ rest.head? = some '\n') (h : MadeOf text pieces)
    (heq : text = '!' :: '!' :: (body ++ rest)) :
    ∃ later, pieces = .lineComment body :: later ∧ MadeOf rest later := by
  have hcomment : OpensComment text := Or.inr ⟨_, heq.symm⟩
  cases h with
  | nil => cases heq
  | enclosed htoken _ => exact absurd hcomment (htoken.not_opensComment _)
  | lineComment hbody' hend' later =>
    injection heq with _ heq
    injection heq with _ heq
    obtain rfl := eq_of_append_eq_line hbody' hbody hend' hend heq
    obtain rfl := List.append_cancel_left heq
    exact ⟨_, rfl, later⟩
  | blockComment _ _ => simp at heq
  | other _ hnone _ _ => exact absurd hcomment hnone

theorem of_blockComment {tail : Text} (htail : CommentTail tail) (h : MadeOf text pieces)
    (heq : text = '/' :: '*' :: (tail ++ rest)) :
    ∃ later, pieces = .blockComment tail :: later ∧ MadeOf rest later := by
  have hcomment : OpensComment text := Or.inl ⟨_, heq.symm⟩
  cases h with
  | nil => cases heq
  | enclosed htoken _ => exact absurd hcomment (htoken.not_opensComment _)
  | lineComment _ _ _ => simp at heq
  | blockComment htail' later =>
    injection heq with _ heq
    injection heq with _ heq
    obtain rfl := htail'.unique htail heq
    obtain rfl := List.append_cancel_left heq
    exact ⟨_, rfl, later⟩
  | other _ hnone _ _ => exact absurd hcomment hnone

theorem of_other {c : Char} (hcomment : ¬ OpensComment (c :: rest))
    (htoken : ∀ token, Enclosed token → ¬ token <+: c :: rest) (h : MadeOf text pieces)
    (heq : text = c :: rest) : ∃ later, pieces = .other c :: later ∧ MadeOf rest later := by
  cases h with
  | nil => cases heq
  | enclosed henclosed _ => exact absurd ⟨_, heq⟩ (htoken _ henclosed)
  | lineComment _ _ _ => exact absurd (Or.inr ⟨_, heq⟩) hcomment
  | blockComment _ _ => exact absurd (Or.inl ⟨_, heq⟩) hcomment
  | other _ _ _ later =>
    obtain ⟨rfl, rfl⟩ := List.cons.inj heq
    exact ⟨_, rfl, later⟩

/-- A source has at most one decomposition. -/
theorem unique {pieces' : List Piece} (h : MadeOf text pieces) (h' : MadeOf text pieces') :
    pieces = pieces' := by
  induction h generalizing pieces' with
  | nil =>
    generalize hnil : ([] : Text) = text at h'
    cases h' with
    | nil => rfl
    | enclosed htoken _ => exact absurd (List.append_eq_nil_iff.mp hnil.symm).1 htoken.ne_nil
    | lineComment _ _ _ => cases hnil
    | blockComment _ _ => cases hnil
    | other _ _ _ _ => cases hnil
  | enclosed htoken _ ih =>
    obtain ⟨later, rfl, hlater⟩ := of_enclosed htoken h' rfl
    rw [ih hlater]
  | lineComment hbody hend _ ih =>
    obtain ⟨later, rfl, hlater⟩ := of_lineComment hbody hend h' rfl
    rw [ih hlater]
  | blockComment htail _ ih =>
    obtain ⟨later, rfl, hlater⟩ := of_blockComment htail h' rfl
    rw [ih hlater]
  | other _ hcomment htoken _ ih =>
    obtain ⟨later, rfl, hlater⟩ := of_other hcomment htoken h' rfl
    rw [ih hlater]

end MadeOf

end Ilic.Formatting
