import Mathlib.Data.List.Forall2
import Ilic.Formatting.LexicalPieces

/-! # The comment remover and the lexer

Before the formatter parses a source, it overwrites the comments with blanks.  Its scanner
counts an escaped quote as the end of a literal, so it takes a program for a literal and a literal
for a program behind an odd number of them.  It agrees with the lexer exactly where that does not
meet a comment, or what looks like one.
-/

namespace Ilic.Formatting

/-- Where the scanner stands: outside of comments, `quoted` or not; in a line comment, which the
source passes over in a loop of its own; or in block comments. -/
inductive Scan where
  | program (quoted : Bool)
  | line
  | block (blockDepth : ℕ)
  deriving DecidableEq

/-- Line breaks stay where they are. -/
def blank (c : Char) : Char := if c = '\r' ∨ c = '\n' then c else ' '

/-- The scanner behind the end of a block comment, with so many comments still open. -/
def behindBlock (blockDepth : ℕ) : Scan :=
  if blockDepth = 0 then .program false else .block blockDepth

def removeFrom : Scan → Text → Text
  | _, [] => []
  | .program _, [c] => [c]
  | .line, [c] => [blank c]
  | .block _, [c] => [blank c]
  | .program quoted, c :: d :: rest =>
    if c = '"' then c :: removeFrom (.program !quoted) (d :: rest)
    else if quoted = false ∧ c = '/' ∧ d = '*' then ' ' :: ' ' :: removeFrom (.block 1) rest
    else if quoted = false ∧ c = '!' ∧ d = '!' then ' ' :: ' ' :: removeFrom .line rest
    else c :: removeFrom (.program quoted) (d :: rest)
  | .line, c :: d :: rest =>
    if c = '\r' ∨ c = '\n' then c :: removeFrom (.program false) (d :: rest)
    else ' ' :: removeFrom .line (d :: rest)
  | .block blockDepth, c :: d :: rest =>
    if c = '/' ∧ d = '*' then ' ' :: ' ' :: removeFrom (.block (blockDepth + 1)) rest
    else if c = '*' ∧ d = '/' then ' ' :: ' ' :: removeFrom (behindBlock (blockDepth - 1)) rest
    else blank c :: removeFrom (.block blockDepth) (d :: rest)

def withoutComments (text : Text) : Text := removeFrom (.program false) text

/-! ## Steps of the scanner -/

variable {rest : Text}

@[simp] theorem removeFrom_nil (scan : Scan) : removeFrom scan [] = [] := by
  cases scan <;> rfl

theorem removeFrom_opener (h : OpensComment rest) :
    ∃ rest', removeFrom (.program false) rest = ' ' :: rest' := by
  rcases h with ⟨behind, rfl⟩ | ⟨behind, rfl⟩
  · exact ⟨_, rfl⟩
  · exact ⟨_, rfl⟩

/-- A byte that opens no comment is kept. -/
theorem removeFrom_kept {quoted : Bool} {c : Char}
    (h : OpensComment (c :: rest) → quoted = true) :
    removeFrom (.program quoted) (c :: rest) =
      c :: removeFrom (.program (if c = '"' then !quoted else quoted)) rest := by
  cases rest with
  | nil => simp [removeFrom]
  | cons d rest =>
    by_cases hquote : c = '"'
    · simp [removeFrom, hquote]
    · cases quoted with
      | true => simp [removeFrom, hquote]
      | false =>
        have hnone : ¬ OpensComment (c :: d :: rest) := fun hopens => absurd (h hopens) (by simp)
        have hblock : ¬ (c = '/' ∧ d = '*') := by
          rintro ⟨rfl, rfl⟩
          exact hnone (Or.inl ⟨rest, rfl⟩)
        have hline : ¬ (c = '!' ∧ d = '!') := by
          rintro ⟨rfl, rfl⟩
          exact hnone (Or.inr ⟨rest, rfl⟩)
        simp [removeFrom, hquote, hblock, hline]

/-- A line comment is overwritten up to its first line break. -/
theorem removeFrom_line {body : Text} (hbody : ∀ c ∈ body, c ≠ '\r' ∧ c ≠ '\n')
    (hend : rest = [] ∨ rest.head? = some '\r' ∨ rest.head? = some '\n') :
    removeFrom .line (body ++ rest) = body.map blank ++ removeFrom (.program false) rest := by
  induction body with
  | nil =>
    rw [List.nil_append, List.map_nil, List.nil_append]
    cases rest with
    | nil => rfl
    | cons c rest =>
      have hbreak : c = '\r' ∨ c = '\n' := by simpa using hend
      have hquote : c ≠ '"' := by rcases hbreak with rfl | rfl <;> decide
      have hnone : ¬ OpensComment (c :: rest) := by
        rcases hbreak with rfl | rfl <;> simp [OpensComment]
      rw [removeFrom_kept fun hopens => absurd hopens hnone, if_neg hquote]
      cases rest with
      | nil => simp [removeFrom, blank, hbreak]
      | cons d rest => rw [removeFrom, if_pos hbreak]
  | cons c body ih =>
    obtain ⟨hc, hbody⟩ := List.forall_mem_cons.mp hbody
    have hbreak : ¬ (c = '\r' ∨ c = '\n') := by simp [hc]
    have hblank : blank c = ' ' := if_neg hbreak
    rw [List.cons_append, List.map_cons, List.cons_append, ← ih hbody, hblank]
    cases hnext : body ++ rest with
    | nil => simp [removeFrom, hblank]
    | cons d next => rw [removeFrom, if_neg hbreak]

/-- A block comment is overwritten with the comments inside of it. -/
theorem removeFrom_block {tail : Text} (h : CommentTail tail) (blockDepth : ℕ) (rest : Text) :
    removeFrom (.block (blockDepth + 1)) (tail ++ rest) =
      tail.map blank ++ removeFrom (behindBlock blockDepth) rest := by
  induction h generalizing blockDepth rest with
  | close => rfl
  | nested _ _ ihinner ih =>
    rw [List.cons_append, List.cons_append, List.append_assoc, removeFrom,
      if_pos ⟨rfl, rfl⟩, ihinner]
    have hbehind : behindBlock (blockDepth + 1) = .block (blockDepth + 1) := rfl
    rw [hbehind, ih]
    simp [blank]
  | @char c tail hopens hcloses htail ih =>
    have hlength := htail.two_le_length
    cases tail with
    | nil => simp at hlength
    | cons d tail =>
      have hopen : ¬ (c = '/' ∧ d = '*') := by
        rintro ⟨rfl, rfl⟩
        exact hopens ⟨tail, rfl⟩
      have hclose : ¬ (c = '*' ∧ d = '/') := by
        rintro ⟨rfl, rfl⟩
        exact hcloses ⟨tail, rfl⟩
      have hrest := ih blockDepth rest
      rw [List.cons_append] at hrest
      rw [List.cons_append, List.cons_append, removeFrom, if_neg hopen, if_neg hclose, hrest]
      rfl

/-- The text of a piece, with blanks in place of a comment. -/
def Piece.blanked : Piece → Text
  | .enclosed token => token
  | .lineComment body => ' ' :: ' ' :: body.map blank
  | .blockComment tail => ' ' :: ' ' :: tail.map blank
  | .other c => [c]

def blanked (pieces : List Piece) : Text := pieces.flatMap Piece.blanked

def Piece.text : Piece → Text
  | .enclosed token => token
  | .lineComment body => '!' :: '!' :: body
  | .blockComment tail => '/' :: '*' :: tail
  | .other c => [c]

def sourceOf (pieces : List Piece) : Text := pieces.flatMap Piece.text

theorem MadeOf.sourceOf_eq {text : Text} {pieces : List Piece} (h : MadeOf text pieces) :
    sourceOf pieces = text := by
  induction h with
  | nil => rfl
  | enclosed _ _ ih => rw [sourceOf, List.flatMap_cons, ← sourceOf, ih, Piece.text]
  | lineComment _ _ _ ih => rw [sourceOf, List.flatMap_cons, ← sourceOf, ih]; rfl
  | blockComment _ _ ih => rw [sourceOf, List.flatMap_cons, ← sourceOf, ih]; rfl
  | other _ _ _ _ ih => rw [sourceOf, List.flatMap_cons, ← sourceOf, ih]; rfl

/-! ## The condition -/

/-- Whether the number of quotes is odd, counted on from `quoted`. -/
def quotedBehind (quoted : Bool) (text : Text) : Bool :=
  text.foldl (fun quoted c => if c = '"' then !quoted else quoted) quoted

/-- In front of every mark of a comment that starts inside of the token the number of quotes is
odd. -/
def MarksQuoted (quoted : Bool) (token behind : Text) : Prop :=
  ∀ before rest, token ++ behind = before ++ rest → before.length < token.length →
    OpensComment rest → quotedBehind quoted before = true

/-- In front of every comment the number of quotes outside of comments is even, and in front of
what looks like one inside of a token it is odd. -/
def QuotesAgree : Bool → List Piece → Prop
  | _, [] => True
  | quoted, .enclosed token :: pieces =>
    MarksQuoted quoted token (sourceOf pieces) ∧ QuotesAgree (quotedBehind quoted token) pieces
  | quoted, .lineComment _ :: pieces => quoted = false ∧ QuotesAgree quoted pieces
  | quoted, .blockComment _ :: pieces => quoted = false ∧ QuotesAgree quoted pieces
  | quoted, .other _ :: pieces => QuotesAgree quoted pieces

/-- Behind a carriage return inside of a line comment there are only blanks up to the end of
the line. -/
def ReturnsTrail (pieces : List Piece) : Prop :=
  ∀ body, .lineComment body ∈ pieces → ∀ before behind, body = before ++ '\r' :: behind →
    ∀ c ∈ behind, c = ' ' ∨ c = '\r'

/-! ## The scanner on one piece -/

variable {rest : Text}

theorem removeFrom_blanks {blanks : Text} (h : ∀ c ∈ blanks, c = ' ' ∨ c = '\r') (rest : Text) :
    removeFrom (.program false) (blanks ++ rest) =
      blanks.map blank ++ removeFrom (.program false) rest := by
  induction blanks with
  | nil => rfl
  | cons c blanks ih =>
    obtain ⟨hc, hblanks⟩ := List.forall_mem_cons.mp h
    have hblank : blank c = c := by rcases hc with rfl | rfl <;> rfl
    have hquote : c ≠ '"' := by rcases hc with rfl | rfl <;> decide
    have hnone : ¬ OpensComment (c :: (blanks ++ rest)) := by
      rcases hc with rfl | rfl <;> simp [OpensComment]
    rw [List.cons_append, removeFrom_kept fun hopens => absurd hopens hnone, if_neg hquote,
      ih hblanks, List.map_cons, hblank, List.cons_append]

theorem removeFrom_lineComment {body : Text} (hbody : '\n' ∉ body)
    (hreturns : ∀ before behind, body = before ++ '\r' :: behind →
      ∀ c ∈ behind, c = ' ' ∨ c = '\r')
    (hend : rest = [] ∨ rest.head? = some '\n') :
    removeFrom (.program false) ('!' :: '!' :: (body ++ rest)) =
      ' ' :: ' ' :: (body.map blank ++ removeFrom (.program false) rest) := by
  have hopened : removeFrom (.program false) ('!' :: '!' :: (body ++ rest)) =
      ' ' :: ' ' :: removeFrom .line (body ++ rest) := rfl
  rw [hopened]
  by_cases hreturn : '\r' ∈ body
  · obtain ⟨before, behind, rfl, hbefore⟩ := List.eq_append_cons_of_mem hreturn
    have hline : ∀ c ∈ before, c ≠ '\r' ∧ c ≠ '\n' := by
      intro c hc
      refine ⟨?_, ?_⟩
      · rintro rfl
        exact hbefore hc
      · rintro rfl
        exact hbody (List.mem_append_left _ hc)
    have hblanks : ∀ c ∈ '\r' :: behind, c = ' ' ∨ c = '\r' :=
      List.forall_mem_cons.mpr ⟨Or.inr rfl, hreturns before behind rfl⟩
    rw [List.append_assoc, removeFrom_line hline (Or.inr (Or.inl rfl)),
      removeFrom_blanks hblanks, List.map_append, List.append_assoc]
  · have hline : ∀ c ∈ body, c ≠ '\r' ∧ c ≠ '\n' := by
      intro c hc
      refine ⟨?_, ?_⟩
      · rintro rfl
        exact hreturn hc
      · rintro rfl
        exact hbody hc
    rw [removeFrom_line hline (hend.imp_right Or.inr)]

theorem OpensComment.head_ne_blank {c : Char} (h : OpensComment (c :: rest)) : c ≠ ' ' := by
  rintro rfl
  simp [OpensComment] at h

theorem marksQuoted_cons {c : Char} {token behind : Text} {quoted : Bool} :
    MarksQuoted quoted (c :: token) behind ↔
      (OpensComment (c :: (token ++ behind)) → quoted = true) ∧
        MarksQuoted (if c = '"' then !quoted else quoted) token behind := by
  constructor
  · intro h
    refine ⟨h [] _ rfl (Nat.succ_pos _), ?_⟩
    intro before rest hsplit hlength hopens
    exact h (c :: before) rest (congrArg (c :: ·) hsplit) (Nat.succ_lt_succ hlength) hopens
  · rintro ⟨hfirst, hlater⟩ before rest hsplit hlength hopens
    cases before with
    | nil =>
      rw [List.nil_append] at hsplit
      exact hfirst (by rwa [← List.cons_append, hsplit])
    | cons d before =>
      obtain ⟨rfl, hafter⟩ := List.cons.inj hsplit
      exact hlater before rest hafter (Nat.lt_of_succ_lt_succ hlength) hopens

/-- A token is kept exactly if every mark inside of it is taken for quoted. -/
theorem removeFrom_token_iff {token behind later : Text} {quoted : Bool} :
    removeFrom (.program quoted) (token ++ behind) = token ++ later ↔
      MarksQuoted quoted token behind ∧
        removeFrom (.program (quotedBehind quoted token)) behind = later := by
  induction token generalizing quoted with
  | nil => simp [MarksQuoted, quotedBehind]
  | cons c token ih =>
    rw [marksQuoted_cons, List.cons_append, List.cons_append]
    by_cases hkept : OpensComment (c :: (token ++ behind)) → quoted = true
    · rw [removeFrom_kept hkept, List.cons.injEq, and_iff_right rfl, ih, and_iff_right hkept]
      rfl
    · obtain ⟨hopens, hquoted⟩ := Classical.not_imp.mp hkept
      rw [Bool.not_eq_true] at hquoted
      subst hquoted
      obtain ⟨overwritten, hremoved⟩ := removeFrom_opener hopens
      rw [hremoved]
      refine iff_of_false ?_ fun h => hkept h.1.1
      intro heq
      exact hopens.head_ne_blank (List.cons.inj heq).1.symm

/-- A comment that is taken for quoted keeps its mark. -/
theorem removeFrom_quoted_ne {c d : Char} (hc : c ≠ ' ') (rest later : Text) :
    removeFrom (.program true) (c :: d :: rest) ≠ ' ' :: later := by
  rw [removeFrom_kept fun _ => rfl]
  intro heq
  exact hc (List.cons.inj heq).1

/-! ## The scanner on a source -/

theorem ReturnsTrail.tail {piece : Piece} {pieces : List Piece}
    (h : ReturnsTrail (piece :: pieces)) : ReturnsTrail pieces :=
  fun body hmem => h body (List.mem_cons_of_mem piece hmem)

theorem removeFrom_eq_blanked_iff {text : Text} {pieces : List Piece} (h : MadeOf text pieces)
    (hreturns : ReturnsTrail pieces) (quoted : Bool) :
    removeFrom (.program quoted) text = blanked pieces ↔ QuotesAgree quoted pieces := by
  induction h generalizing quoted with
  | nil => exact iff_of_true (removeFrom_nil _) trivial
  | @enclosed token rest pieces _ hlater ih =>
    have hblanked : blanked (.enclosed token :: pieces) = token ++ blanked pieces := rfl
    rw [hblanked, removeFrom_token_iff, ih hreturns.tail, QuotesAgree, hlater.sourceOf_eq]
  | @lineComment body rest pieces hbody hend _ ih =>
    have hblanked : blanked (.lineComment body :: pieces) =
        ' ' :: ' ' :: (body.map blank ++ blanked pieces) := rfl
    rw [hblanked, QuotesAgree]
    cases quoted with
    | true => exact iff_of_false (removeFrom_quoted_ne (by decide) _ _) fun h => by simp at h
    | false =>
      rw [removeFrom_lineComment hbody (hreturns body List.mem_cons_self) hend,
        List.cons.injEq, List.cons.injEq, List.append_cancel_left_eq, ih hreturns.tail]
      simp
  | @blockComment tail rest pieces htail _ ih =>
    have hblanked : blanked (.blockComment tail :: pieces) =
        ' ' :: ' ' :: (tail.map blank ++ blanked pieces) := rfl
    have hopened : removeFrom (.program false) ('/' :: '*' :: (tail ++ rest)) =
        ' ' :: ' ' :: removeFrom (.block 1) (tail ++ rest) := rfl
    have hbehind : behindBlock 0 = .program false := rfl
    rw [hblanked, QuotesAgree]
    cases quoted with
    | true => exact iff_of_false (removeFrom_quoted_ne (by decide) _ _) fun h => by simp at h
    | false =>
      rw [hopened, removeFrom_block htail 0 rest, hbehind, List.cons.injEq, List.cons.injEq,
        List.append_cancel_left_eq, ih hreturns.tail]
      simp
  | @other c rest pieces hquote hcomment _ _ ih =>
    have hblanked : blanked (.other c :: pieces) = c :: blanked pieces := rfl
    rw [hblanked, removeFrom_kept fun hopens => absurd hopens hcomment, if_neg hquote,
      List.cons.injEq, and_iff_right rfl, ih hreturns.tail, QuotesAgree]

/-! ## The tokens of the result -/

/-- What the lexer finds in place of a piece. -/
def Piece.seen : Piece → List Piece
  | .lineComment body => (' ' :: ' ' :: body.map blank).map .other
  | .blockComment tail => (' ' :: ' ' :: tail.map blank).map .other
  | .enclosed token => [.enclosed token]
  | .other c => [.other c]

/-- Some bytes of a text are overwritten with blanks. -/
abbrev Overwritten (text text' : Text) : Prop := List.Forall₂ (fun c d => d = c ∨ d = ' ') text text'

theorem overwritten_map_blank (text : Text) : Overwritten text (text.map blank) := by
  induction text with
  | nil => exact List.Forall₂.nil
  | cons c text ih =>
    refine List.Forall₂.cons ?_ ih
    rw [blank]
    split_ifs
    · exact Or.inl rfl
    · exact Or.inr rfl

theorem overwritten_refl (text : Text) : Overwritten text text :=
  List.forall₂_same.mpr fun _ _ => Or.inl rfl

theorem MadeOf.overwritten {text : Text} {pieces : List Piece} (h : MadeOf text pieces) :
    Overwritten text (blanked pieces) := by
  have happend : ∀ {a a' b b' : Text}, Overwritten a a' → Overwritten b b' →
      Overwritten (a ++ b) (a' ++ b') := fun ha hb => List.rel_append ha hb
  induction h with
  | nil => exact List.Forall₂.nil
  | enclosed _ _ ih => exact happend (overwritten_refl _) ih
  | lineComment _ _ _ ih =>
    exact .cons (Or.inr rfl) (.cons (Or.inr rfl) (happend (overwritten_map_blank _) ih))
  | blockComment _ _ ih =>
    exact .cons (Or.inr rfl) (.cons (Or.inr rfl) (happend (overwritten_map_blank _) ih))
  | other _ _ _ _ ih => exact .cons (Or.inl rfl) ih

/-- What starts with no blank in it started there before. -/
theorem Overwritten.prefix_of_prefix {text text' pat : Text} (h : Overwritten text text')
    (hblank : ' ' ∉ pat) (hstarts : pat <+: text') : pat <+: text := by
  induction h generalizing pat with
  | nil => exact hstarts
  | cons hhead _ ih =>
    cases pat with
    | nil => exact List.nil_prefix
    | cons c pat =>
      obtain ⟨rfl, hrest⟩ := List.cons_prefix_cons.mp hstarts
      rw [List.mem_cons, not_or] at hblank
      obtain rfl := hhead.resolve_right (Ne.symm hblank.1)
      exact List.cons_prefix_cons.mpr ⟨rfl, ih hblank.2 hrest⟩

theorem Overwritten.opensComment {text text' : Text} (h : Overwritten text text')
    (hopens : OpensComment text') : OpensComment text :=
  hopens.imp (h.prefix_of_prefix (by decide)) (h.prefix_of_prefix (by decide))

/-- An explanation that is found afterwards ended before, if not earlier. -/
theorem Overwritten.explanationTail {text text' tail : Text} (h : Overwritten text text')
    (htail : ExplanationTail tail) (hstarts : tail <+: text') :
    ∃ tail', ExplanationTail tail' ∧ tail' <+: text := by
  induction htail generalizing text text' with
  | close => exact ⟨_, .close, h.prefix_of_prefix (by decide) hstarts⟩
  | char _ _ ih =>
    cases h with
    | nil => exact absurd (List.prefix_nil.mp hstarts) (List.cons_ne_nil _ _)
    | @cons c d text text' _ hrest =>
      by_cases hcloses : ['/', '/'] <+: c :: text
      · exact ⟨_, .close, hcloses⟩
      · obtain ⟨tail', htail', hprefix⟩ := ih hrest (List.cons_prefix_cons.mp hstarts).2
        have hlonger : c :: tail' <+: c :: text := List.cons_prefix_cons.mpr ⟨rfl, hprefix⟩
        exact ⟨c :: tail', .char (fun hmark => hcloses (hmark.trans hlonger)) htail', hlonger⟩

theorem Escape.blank_not_mem {e : Text} (h : Escape e) : ' ' ∉ e := by
  cases h with
  | quote => decide
  | backslash => decide
  | unicode hdigits =>
    intro hmem
    rcases List.mem_cons.mp hmem with heq | hmem
    · exact absurd heq (by decide)
    rcases List.mem_cons.mp hmem with heq | hmem
    · exact absurd heq (by decide)
    exact absurd (hdigits ' ' hmem) (by decide)

/-- No token starts afterwards that did not start before. -/
theorem Overwritten.enclosed {c : Char} {text text' token : Text} (h : Overwritten text text')
    (hquote : c ≠ '"') (htoken : Enclosed token) (hstarts : token <+: c :: text') :
    ∃ token', Enclosed token' ∧ token' <+: c :: text := by
  have hall : Overwritten (c :: text) (c :: text') := .cons (Or.inl rfl) h
  cases htoken with
  | literal _ => exact absurd (List.cons_prefix_cons.mp hstarts).1.symm hquote
  | explanation htail =>
    cases hall with
    | cons _ hrest =>
      obtain ⟨rfl, hsecond⟩ := List.cons_prefix_cons.mp hstarts
      cases hrest with
      | nil => exact absurd (List.prefix_nil.mp hsecond) (List.cons_ne_nil _ _)
      | cons hhead hrest =>
        obtain ⟨rfl, hthird⟩ := List.cons_prefix_cons.mp hsecond
        obtain rfl := hhead.resolve_right (by decide)
        obtain ⟨tail', htail', hprefix⟩ := Overwritten.explanationTail hrest htail hthird
        exact ⟨_, .explanation htail', by simpa using hprefix⟩
  | escape he => exact ⟨token, .escape he, hall.prefix_of_prefix he.blank_not_mem hstarts⟩

theorem Enclosed.exists_cons {token : Text} (h : Enclosed token) : ∃ c rest, token = c :: rest ∧
    (c = '"' ∨ c = '/' ∨ c = '\\') := by
  cases h with
  | literal _ => exact ⟨_, _, rfl, Or.inl rfl⟩
  | explanation _ => exact ⟨_, _, rfl, Or.inr (Or.inl rfl)⟩
  | escape he =>
    obtain ⟨e, rfl⟩ := he.exists_cons
    exact ⟨_, _, rfl, Or.inr (Or.inr rfl)⟩

theorem separates_blank (c : Char) : separates (blank c) = true ∧ blank c ≠ '"' ∧
    blank c ≠ '/' ∧ blank c ≠ '\\' ∧ blank c ≠ '!' := by
  rw [blank]
  split_ifs with hbreak
  · rcases hbreak with rfl | rfl <;> decide
  · decide

theorem madeOf_blanks {pieces : List Piece} (h : MadeOf rest pieces) (text : Text) :
    MadeOf (text.map blank ++ rest) ((text.map blank).map .other ++ pieces) := by
  induction text with
  | nil => exact h
  | cons c text ih =>
    obtain ⟨-, hquote, hslash, hbackslash, hmark⟩ := separates_blank c
    refine MadeOf.other hquote ?_ ?_ ih
    · rintro (⟨_, heq⟩ | ⟨_, heq⟩)
      · exact hslash (List.cons.inj heq).1.symm
      · exact hmark (List.cons.inj heq).1.symm
    · intro token htoken hstarts
      obtain ⟨first, after, rfl, hfirst⟩ := htoken.exists_cons
      obtain ⟨rfl, -⟩ := List.cons_prefix_cons.mp hstarts
      rcases hfirst with h | h | h
      · exact hquote h
      · exact hslash h
      · exact hbackslash h

theorem MadeOf.blanked {text : Text} {pieces : List Piece} (h : MadeOf text pieces) :
    MadeOf (blanked pieces) (pieces.flatMap Piece.seen) := by
  induction h with
  | nil => exact .nil
  | enclosed htoken _ ih => exact .enclosed htoken ih
  | @lineComment body _ _ _ _ _ ih => exact madeOf_blanks ih ('!' :: '!' :: body)
  | @blockComment tail _ _ _ _ ih => exact madeOf_blanks ih ('/' :: '*' :: tail)
  | other hquote hcomment htoken hlater ih =>
    have hover := hlater.overwritten
    refine .other hquote ?_ ?_ ih
    · intro hopens
      exact hcomment (Overwritten.opensComment (.cons (Or.inl rfl) hover) hopens)
    · intro token henclosed hstarts
      obtain ⟨token', htoken', hprefix⟩ :=
        Overwritten.enclosed hover hquote henclosed hstarts
      exact htoken token' htoken' hprefix

theorem wordsFrom_blanks (text : Text) (pieces : List Piece) :
    wordsFrom [] ((text.map blank).map .other ++ pieces) = wordsFrom [] pieces := by
  induction text with
  | nil => rfl
  | cons c text ih =>
    rw [List.map_cons, List.map_cons, List.cons_append, wordsFrom,
      if_pos (separates_blank c).1, ih]
    rfl

/-- A comment separates words like the blanks in its place. -/
theorem wordsFrom_blanks_cons (run : Text) (c : Char) (text : Text) (pieces : List Piece) :
    wordsFrom run (((c :: text).map blank).map .other ++ pieces) =
      endRun run ++ wordsFrom [] pieces := by
  rw [List.map_cons, List.map_cons, List.cons_append, wordsFrom,
    if_pos (separates_blank c).1, wordsFrom_blanks]

theorem wordsFrom_seen (pieces : List Piece) (run : Text) :
    wordsFrom run (pieces.flatMap Piece.seen) = wordsFrom run pieces := by
  induction pieces generalizing run with
  | nil => rfl
  | cons piece pieces ih =>
    rw [List.flatMap_cons]
    cases piece with
    | enclosed token =>
      rw [Piece.seen, List.singleton_append, wordsFrom, wordsFrom, ih]
    | lineComment body =>
      have hblanks := wordsFrom_blanks_cons run '!' ('!' :: body) (pieces.flatMap Piece.seen)
      rw [wordsFrom, ← ih]
      exact hblanks
    | blockComment tail =>
      have hblanks := wordsFrom_blanks_cons run '/' ('*' :: tail) (pieces.flatMap Piece.seen)
      rw [wordsFrom, ← ih]
      exact hblanks
    | other c =>
      rw [Piece.seen, List.singleton_append, wordsFrom, wordsFrom, ih, ih]

/-! ## The comment remover -/

/-- The comments are overwritten, nothing else is, and the lexer finds the same words, exactly
if every comment starts behind an even number of quotes and every mark inside of a token behind
an odd one. -/
theorem withoutComments_agrees_iff {text : Text} {pieces : List Piece} (h : MadeOf text pieces)
    (hreturns : ReturnsTrail pieces) :
    (withoutComments text = blanked pieces ∧
        ∃ seen, MadeOf (withoutComments text) seen ∧ words seen = words pieces) ↔
      QuotesAgree false pieces := by
  rw [withoutComments, removeFrom_eq_blanked_iff h hreturns]
  refine and_iff_left_of_imp fun hagree => ?_
  rw [(removeFrom_eq_blanked_iff h hreturns false).mpr hagree]
  exact ⟨_, h.blanked, wordsFrom_seen pieces []⟩

theorem madeOf_literal_comment :
    MadeOf "\"a\"/*b*/".toList [.enclosed "\"a\"".toList, .blockComment "b*/".toList] :=
  .enclosed (.literal (.char (by decide) (by decide) .close))
    (.blockComment (.char (by decide) (by decide) .close) .nil)

theorem withoutComments_agrees_literal_comment :
    (withoutComments "\"a\"/*b*/".toList =
        blanked [.enclosed "\"a\"".toList, .blockComment "b*/".toList] ∧
      ∃ seen, MadeOf (withoutComments "\"a\"/*b*/".toList) seen ∧
        words seen = words [.enclosed "\"a\"".toList, .blockComment "b*/".toList]) ↔
      QuotesAgree false [.enclosed "\"a\"".toList, .blockComment "b*/".toList] :=
  withoutComments_agrees_iff madeOf_literal_comment fun _ hmem => absurd hmem (by simp)

/-- A literal with an escaped quote in front of a mark: the mark and what follows it are
overwritten. -/
theorem withoutComments_overwrites_literal :
    ¬ ∀ text pieces, MadeOf text pieces → withoutComments text = blanked pieces := by
  intro hall
  have hmade : MadeOf "\"\\\"/*\"".toList [.enclosed "\"\\\"/*\"".toList] :=
    .enclosed (.literal (.escape .quote (.char (by decide) (by decide)
      (.char (by decide) (by decide) .close)))) .nil
  exact absurd (hall _ _ hmade) (by decide)

end Ilic.Formatting
