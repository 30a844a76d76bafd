import Protean.Proofs.Parser.Acceptance
import Protean.Proofs.Token.Reading
import Protean.Proofs.Token.Scan

/-!
# Proofs — Parser — a text between quotes

A text that is written between quotes, with what must be escaped in it escaped, is read as a literal that stands for
just this text.

* In the middle of a literal an escaped character is passed as the character that it stands for, so the text up to
  the quote behind it is one piece of content (`State.content_escape`).  No interpolation starts inside of it, and
  only that quote ends it.
* So the lexer makes one literal of the text wherever it stands outside of strings, whatever follows
  (`State.reaches_quote`).
* Readers branch on the kinds of tokens and take the text as it is: `Parser.string_quoted` where an expression is
  read, and `Parser.function_marked` where a function is marked.  What such a text makes by itself is a whole
  program (`Parser.program_of_primary`).

**Escaping is undone**: `escaping_is_undone`.
-/

namespace Protean

/-! ### The tokens of a literal

What the lexer ought to find in a text between quotes. -/

namespace Token

/-- The content of a literal that stands for `text`.  Without any text it has none. -/
def contentOf (start stop : Nat) (text : String) : List Token :=
  if text = "" then [] else [⟨.stringContent, text, ⟨start, stop⟩⟩]

/-- There is at most one piece of content, so it is the same backwards. -/
theorem contentOf_reverse (start stop : Nat) (text : String) :
    (contentOf start stop text).reverse = contentOf start stop text := by
  rw [contentOf]
  split <;> rfl

/-- The literal that stands for `text` and starts at `offset`. -/
def quoted (offset : Nat) (text : String) : List Token :=
  let stop := offset + 1 + (Text.escape text).utf8ByteSize
  ⟨.stringStart, "\"", ⟨offset, offset + 1⟩⟩ ::
    (contentOf (offset + 1) stop text ++ [⟨.stringEnd, "\"", ⟨stop, stop + 1⟩⟩])

/-- The tokens of a function without statements that is marked by `text`. -/
def marked (name text : String) : List Token :=
  let stop := 1 + name.utf8ByteSize
  let close := stop + 3 + (Text.quote text).utf8ByteSize
  ⟨.leftBracket, "[", ⟨0, 1⟩⟩ :: (⟨.identifier, name, ⟨1, stop⟩⟩ :: ⟨.assign, "=", ⟨stop + 1, stop + 2⟩⟩ ::
    quoted (stop + 3) text ++ [⟨.rightBracket, "]", ⟨close, close + 1⟩⟩]) ++
      [⟨.leftBrace, "\x7b", ⟨close + 2, close + 3⟩⟩, ⟨.rightBrace, "\x7d", ⟨close + 4, close + 5⟩⟩]

/-- The end of a text that takes `size` bytes. -/
def ending (size : Nat) : Token := ⟨.eof, "", .empty size⟩

end Token

namespace Text

/-- A function without statements that is marked by a text. -/
def marked (name text : String) : String := "[" ++ name ++ " = " ++ quote text ++ "] \x7b \x7d"

theorem toList_quote (text : String) : (quote text).toList = '"' :: ((escape text).toList ++ ['"']) := by
  simp [quote]

theorem utf8ByteSize_quote (text : String) : (quote text).utf8ByteSize = (escape text).utf8ByteSize + 2 := by
  have hsign : "\"".utf8ByteSize = 1 := rfl
  rw [quote, String.utf8ByteSize_append, String.utf8ByteSize_append, hsign, Nat.add_comm 1]

/-- The characters of a function that is marked with a text. -/
theorem toList_marked (name text : String) : (marked name text).toList =
    '[' :: (name.toList ++ ' ' :: '=' :: ' ' ::
      ((quote text).toList ++ [']', ' ', '\x7b', ' ', '\x7d'])) := by
  simp [marked]

/-- All but the name and the text between quotes are characters of one byte. -/
theorem utf8ByteSize_marked (name text : String) :
    (marked name text).utf8ByteSize = 1 + name.utf8ByteSize + 3 + (quote text).utf8ByteSize + 5 := by
  have hsigns : "[".utf8ByteSize = 1 ∧ " = ".utf8ByteSize = 3 ∧ "] \x7b \x7d".utf8ByteSize = 5 := ⟨rfl, rfl, rfl⟩
  simp only [marked, String.utf8ByteSize_append, hsigns]

end Text

/-! ### What the lexer finds

The rounds of the lexer through a literal and through a mark. -/

namespace Lexer

open Token

/-- A name is taken off the text as a whole. -/
theorem lexeme_identifier {last : Option TokenKind} {c : Char} {cs r : List Char} (hc : isNameStart c = true)
    (hcs : ∀ d ∈ cs, isNameChar d = true) (hr : ∀ d ∈ r.head?, isNameChar d = false) :
    lexeme last c (cs ++ r) = .token .identifier (c :: cs) r := by
  obtain ⟨hnewline, -, -, hchar⟩ := isNameStart_spec hc
  have hspan : (c :: (cs ++ r)).span isNameChar = (c :: cs, r) :=
    span_append (List.forall_mem_cons.mpr ⟨hchar, hcs⟩) hr
  rw [lexeme.eq_def, if_neg hnewline, if_pos hc, hspan]

namespace State

variable {offset n : Nat} {modes : List Mode} {tokens : List Token} {errors : List LexicalError} {text : String}
  {cs r : List Char}

/-- A gap of blanks ends in front of a token. -/
theorem skip_blanks {statements : Bool} {c : Char} (hcomment : startsComment (c :: r) = false)
    (hc : Text.isBlank c = false) :
    skip statements .plain offset (List.replicate n ' ' ++ c :: r) = (offset + n, c :: r) := by
  induction n generalizing offset with
  | zero =>
    rw [List.replicate_zero, List.nil_append, skip_plain _ _ hcomment, hc]
    rfl
  | succ n ih => rw [List.replicate_succ, List.cons_append, skip_blank, ih, Nat.add_right_comm, Nat.add_assoc]

/-- A token behind blanks. -/
theorem step_blanks {c : Char} {kind : TokenKind} {taken rest : List Char} {size : Nat}
    (hcs : cs = List.replicate n ' ' ++ c :: r) (ho : Outside modes) (hcomment : startsComment (c :: r) = false)
    (hc : Text.isBlank c = false) (hlexeme : lexeme (tokens.head?.map Token.kind) c r = .token kind taken rest)
    (hsize : Text.byteLength taken = size) :
    step ⟨offset, cs, modes, tokens, errors⟩ =
      some ⟨offset + n + size, rest, nest kind (offset + n) modes,
        ⟨kind, String.ofList taken, ⟨offset + n, offset + n + size⟩⟩ :: tokens, errors⟩ := by
  generalize hs : State.mk offset cs modes tokens errors = s
  have hmode : ∀ openedAt, s.mode ≠ .string openedAt := hs ▸ ho
  have hgap : s.skipGap = ⟨offset + n, c :: r, modes, tokens, errors⟩ := by
    rw [← hs, skipGap, hcs, skip_blanks hcomment hc]
  have hlast : s.lastKind = tokens.head?.map Token.kind := hs ▸ rfl
  rw [step_eq_take hmode (congrArg State.rest hgap), hgap, hlast, hlexeme, ← hsize]
  rfl

/-- A sign of one byte behind blanks. -/
theorem step_sign {c : Char} {kind : TokenKind} (hcs : cs = List.replicate n ' ' ++ c :: r) (ho : Outside modes)
    (hcomment : startsComment (c :: r) = false) (hc : Text.isBlank c = false)
    (hlexeme : lexeme (tokens.head?.map Token.kind) c r = .token kind [c] r) (hsize : c.utf8Size = 1) :
    step ⟨offset, cs, modes, tokens, errors⟩ =
      some ⟨offset + n + 1, r, nest kind (offset + n) modes,
        ⟨kind, c.toString, ⟨offset + n, offset + n + 1⟩⟩ :: tokens, errors⟩ :=
  step_blanks hcs ho hcomment hc hlexeme hsize

/-- The content of a literal is the text without its escapes. -/
theorem content_escape : content ⟨offset, (Text.escape text).toList ++ '"' :: r, modes, tokens, errors⟩ =
    ⟨offset + (Text.escape text).utf8ByteSize, '"' :: r, modes,
      contentOf offset (offset + (Text.escape text).utf8ByteSize) text ++ tokens, errors⟩ := by
  have hchars : (Text.escape text).toList = text.toList.flatMap Text.escapeChar := by simp [Text.escape]
  obtain ⟨htext, herrors, hrest, hle, hnil⟩ := chunk_escape (r := r) text.toList offset
  rw [← hchars] at htext herrors hrest hle hnil
  -- the offset counts what was passed, which is all in front of the quote
  have hoffset : (chunk offset ((Text.escape text).toList ++ '"' :: r)).offset =
      offset + (Text.escape text).utf8ByteSize := by
    obtain ⟨passed, hpassed, hoffset⟩ := chunk_passes offset ((Text.escape text).toList ++ '"' :: r)
    rw [hrest] at hpassed
    rw [hoffset, Text.utf8ByteSize_eq, List.append_cancel_right hpassed]
  have hempty : offset + (Text.escape text).utf8ByteSize = offset ↔ text = "" := by
    rw [← hoffset, ← String.toList_eq_nil_iff]
    exact ⟨fun h => List.eq_nil_of_length_eq_zero (by omega), hnil⟩
  simp only [content, htext, herrors, hrest, hoffset, hempty, String.ofList_toList, List.reverse_nil,
    List.nil_append]
  rw [contentOf, apply_ite (· ++ tokens)]
  rfl

/-- In the middle of a literal the escaped text is content, and what ends it is the quote behind. -/
theorem step_escape (openedAt : Nat) :
    step ⟨offset, (Text.escape text).toList ++ '"' :: r, .string openedAt :: modes, tokens, errors⟩ =
      some ⟨offset + (Text.escape text).utf8ByteSize + 1, r, modes,
        ⟨.stringEnd, "\"", ⟨offset + (Text.escape text).utf8ByteSize,
          offset + (Text.escape text).utf8ByteSize + 1⟩⟩ ::
            (contentOf offset (offset + (Text.escape text).utf8ByteSize) text ++ tokens), errors⟩ := by
  have hstep : ∀ rest, step ⟨offset, rest, .string openedAt :: modes, tokens, errors⟩ =
      some (stringPart ⟨offset, rest, .string openedAt :: modes, tokens, errors⟩ openedAt) := fun _ => rfl
  rw [hstep, stringPart_eq, content_escape]
  generalize (Text.escape text).utf8ByteSize = size
  rfl

/-- **A text between quotes is found as its literal**, wherever it stands outside of strings. -/
theorem reaches_quote (hcs : cs = List.replicate n ' ' ++ ((Text.quote text).toList ++ r)) (ho : Outside modes) :
    Reaches ⟨offset, cs, modes, tokens, errors⟩
      ⟨offset + n + (Text.quote text).utf8ByteSize, r, modes, (quoted (offset + n) text).reverse ++ tokens,
        errors⟩ := by
  have hquote : (Text.quote text).toList ++ r = '"' :: ((Text.escape text).toList ++ '"' :: r) := by
    rw [Text.toList_quote]
    simp
  have hsize : offset + n + (Text.quote text).utf8ByteSize =
      offset + n + 1 + (Text.escape text).utf8ByteSize + 1 := by
    rw [Text.utf8ByteSize_quote]
    omega
  rw [hquote] at hcs
  rw [hsize, quoted, List.reverse_cons, List.reverse_concat, contentOf_reverse]
  refine .step (step_sign hcs ho rfl (by decide) rfl rfl) (.step (step_escape (offset + n)) ?_)
  generalize offset + n + 1 + (Text.escape text).utf8ByteSize = stop
  rw [List.append_assoc, List.cons_append]
  exact .refl _

end State

end Lexer

namespace Token

open Lexer Lexer.State

/-- Where everything is passed without an error, the end is all that is left to find. -/
theorem ofText_of_passed {text : String} {t : State} (h : Reaches (.start text.toList) t) (hrest : t.rest = [])
    (hmodes : t.modes = []) (herrors : t.errors = []) :
    ofText text = ⟨t.tokens.reverse ++ [ending t.offset], []⟩ := by
  obtain ⟨offset, rest, modes, tokens, errors⟩ := t
  obtain ⟨rfl, rfl, rfl⟩ : rest = [] ∧ modes = [] ∧ errors = [] := ⟨hrest, hmodes, herrors⟩
  rw [ofText_of_reaches h rfl, ← List.reverse_cons]
  rfl

theorem ofText_quote (text : String) :
    ofText (Text.quote text) = ⟨quoted 0 text ++ [ending (Text.quote text).utf8ByteSize], []⟩ := by
  have hreaches : Reaches (.start (Text.quote text).toList)
      ⟨0 + 0 + (Text.quote text).utf8ByteSize, [], [], (quoted (0 + 0) text).reverse ++ [], []⟩ := by
    refine reaches_quote (r := []) ?_ outside_nil
    rw [List.append_nil, List.replicate_zero, List.nil_append]
  rw [ofText_of_passed hreaches rfl rfl rfl, List.append_nil, List.reverse_reverse]
  simp only [Nat.zero_add]

/-- What stands in front of the text of a mark. -/
theorem reaches_mark {name : String} {r : List Char} (hname : IsIdentifier name) :
    Reaches (.start ('[' :: (name.toList ++ ' ' :: '=' :: ' ' :: r)))
      ⟨1 + name.utf8ByteSize + 2, ' ' :: r, [.inline],
        [⟨.assign, "=", ⟨1 + name.utf8ByteSize + 1, 1 + name.utf8ByteSize + 2⟩⟩,
          ⟨.identifier, name, ⟨1, 1 + name.utf8ByteSize⟩⟩, ⟨.leftBracket, "[", ⟨0, 1⟩⟩], []⟩ := by
  obtain ⟨c, cs, hchars, hc, hcs⟩ := hname
  obtain ⟨-, hslash, hblank, -⟩ := isNameStart_spec hc
  have hsize : Text.byteLength (c :: cs) = name.utf8ByteSize := by rw [Text.utf8ByteSize_eq, hchars]
  have hlexeme : String.ofList (c :: cs) = name := by rw [← hchars, String.ofList_toList]
  have hidentifier : step ⟨1, c :: (cs ++ ' ' :: '=' :: ' ' :: r), [.inline], [⟨.leftBracket, "[", ⟨0, 1⟩⟩], []⟩ =
      some ⟨1 + 0 + name.utf8ByteSize, ' ' :: '=' :: ' ' :: r, [.inline],
        [⟨.identifier, String.ofList (c :: cs), ⟨1, 1 + 0 + name.utf8ByteSize⟩⟩, ⟨.leftBracket, "[", ⟨0, 1⟩⟩],
          []⟩ := by
    refine step_blanks (n := 0) rfl (outside_inline _) ?_ hblank (lexeme_identifier hc hcs ?_) hsize
    · exact startsComment_eq_false.mpr ⟨fun _ h => absurd h hslash, fun _ h => absurd h hslash⟩
    · rintro d ⟨⟩
      decide
  rw [hlexeme] at hidentifier
  rw [hchars]
  generalize name.utf8ByteSize = size at *
  refine .step (step_sign (n := 0) rfl outside_nil rfl (by decide) rfl rfl) (.step hidentifier ?_)
  exact .step (step_sign (n := 1) rfl (outside_inline _) rfl (by decide) rfl rfl) (.refl _)

/-- What stands behind the text of a mark. -/
theorem reaches_function (close : Nat) (tokens : List Token) :
    Reaches ⟨close, [']', ' ', '\x7b', ' ', '\x7d'], [.inline], tokens, []⟩ ⟨close + 5, [], [],
      ⟨.rightBrace, "\x7d", ⟨close + 4, close + 5⟩⟩ :: ⟨.leftBrace, "\x7b", ⟨close + 2, close + 3⟩⟩ ::
        ⟨.rightBracket, "]", ⟨close, close + 1⟩⟩ :: tokens, []⟩ := by
  refine .step (step_sign (n := 0) rfl (outside_inline _) rfl (by decide) rfl rfl) ?_
  refine .step (step_sign (n := 1) rfl outside_nil rfl (by decide) rfl rfl) ?_
  exact .step (step_sign (n := 1) rfl (outside_statements _) rfl (by decide) rfl rfl) (.refl _)

/-- The tokens of a function that is marked with a text. -/
theorem ofText_marked {name : String} (hname : IsIdentifier name) (text : String) :
    ofText (Text.marked name text) = ⟨marked name text ++ [ending (Text.marked name text).utf8ByteSize], []⟩ := by
  have hreaches : Reaches (.start (Text.marked name text).toList) ⟨(Text.marked name text).utf8ByteSize, [], [],
      (marked name text).reverse, []⟩ := by
    rw [Text.toList_marked, Text.utf8ByteSize_marked, marked]
    refine (reaches_mark hname).trans
      (.trans (reaches_quote (n := 1) List.singleton_append.symm (outside_inline _)) ?_)
    simp only [List.reverse_cons, List.reverse_append, List.reverse_nil, List.nil_append, List.cons_append,
      List.append_assoc]
    exact reaches_function _ _
  rw [ofText_of_passed hreaches rfl rfl rfl, List.reverse_reverse]

end Token

open Token

/-! ### What is read

The readers of strings, of decorators and of functions on these tokens. -/

/-- A span that starts and ends first is covered from its start to the end of the other one. -/
theorem Span.cover_of_le {s t : Span} (hstart : s.start ≤ t.start) (hstop : s.stop ≤ t.stop) :
    s.cover t = ⟨s.start, t.stop⟩ := by
  rw [cover, Nat.min_eq_left hstart, Nat.max_eq_right hstop]

namespace Parser

open Grammar

variable {fuel : Nat} {operand : Parser Expr} {ts tail : List Token}

/-- The content of a literal and its end are the rest of a string without interpolations. -/
theorem content_quoted (start stop : Nat) (text : String) (span : Span) :
    Content (contentOf start stop text ++ [⟨.stringEnd, "\"", span⟩]) text := by
  have hend : Content [⟨.stringEnd, "\"", span⟩] "" := .stop rfl
  rw [contentOf]
  split
  · rename_i htext
    exact htext ▸ hend
  · have hmore : Content (⟨.stringContent, text, ⟨start, stop⟩⟩ :: [⟨.stringEnd, "\"", span⟩]) (text ++ "") :=
      .more rfl hend
    rwa [String.append_empty] at hmore

/-- The content of a literal and its end, read as parts: the text is all there is. -/
theorem stringParts_quoted (start stop : Nat) (text : String) (span : Span) :
    Accepts (stringParts .strict operand fuel ⟨[], "", none⟩)
      (contentOf start stop text ++ [⟨.stringEnd, "\"", span⟩]) tail
      fun r => r.1.parts = [] ∧ r.1.text = text ∧ r.2 = span := by
  have hend : ∀ fuel read, Accepts (stringParts .strict operand fuel read) [⟨.stringEnd, "\"", span⟩] tail
      (· = (read, span)) := by
    intro fuel read
    cases fuel with
    | zero => exact .starve
    | succ fuel =>
      refine .look fun s _ hkind _ => ?_
      have hkind : s.kind = .stringEnd := hkind
      simp only [hkind]
      exact .next (by simp) (.pure rfl)
  rw [contentOf]
  split
  · rename_i htext
    exact (hend fuel _).weaken fun r hr => hr ▸ ⟨rfl, htext.symm, rfl⟩
  · cases fuel with
    | zero => exact .starve
    | succ fuel =>
      refine .look fun s _ hkind _ => ?_
      have hkind : s.kind = .stringContent := hkind
      simp only [hkind]
      refine .next (by simp) ((hend fuel _).weaken fun r hr => hr ▸ ⟨rfl, ?_, rfl⟩)
      rw [Pieces.addText, String.empty_append]

/-- A literal is read as the text that it stands for, whatever follows. -/
theorem string_quoted (offset : Nat) (text : String) :
    Accepts (string .strict fuel operand) (quoted offset text) tail
      (· = .literal (.placed ⟨offset, offset + (Text.quote text).utf8ByteSize⟩) (.string text)) := by
  have hspan : (Span.mk offset (offset + 1)).cover ⟨offset + 1 + (Text.escape text).utf8ByteSize,
      offset + 1 + (Text.escape text).utf8ByteSize + 1⟩ = ⟨offset, offset + (Text.quote text).utf8ByteSize⟩ := by
    have hstop : offset + (Text.quote text).utf8ByteSize = offset + 1 + (Text.escape text).utf8ByteSize + 1 := by
      rw [Text.utf8ByteSize_quote]
      omega
    rw [hstop]
    refine Span.cover_of_le ?_ ?_
    · exact Nat.le_trans (Nat.le_succ offset) (Nat.le_add_right _ _)
    · exact Nat.le_trans (Nat.le_add_right _ _) (Nat.le_succ _)
  refine .next (by simp) ((stringParts_quoted _ _ text _).map fun r hr => .pure ?_)
  obtain ⟨hparts, htext, hstop⟩ := hr
  rw [Pieces.build, hparts, htext, hstop]
  exact congrArg (fun span => Expr.literal (.placed span) (.string text)) hspan

/-- The value of a decorator is the text between its quotes. -/
theorem remarks_quoted (name text : String) (left place equals right : Span) (offset : Nat) :
    Remarks (⟨.leftBracket, "[", left⟩ ::
      (⟨.identifier, name, place⟩ :: ⟨.assign, "=", equals⟩ :: quoted offset text) ++ [⟨.rightBracket, "]", right⟩])
      [(name, some text)] :=
  .full rfl (.last (.text rfl rfl rfl (content_quoted _ _ text _))) rfl

/-- A function without statements that is marked by a text. -/
theorem function_marked (name text : String) :
    Accepts (function .strict fuel operand) (marked name text) tail
      (· = .function (.placed ⟨0, (Text.marked name text).utf8ByteSize⟩) [(name, some text)] [] []) := by
  have hspan : ∀ close, (Span.mk 0 1).cover ⟨close + 4, close + 5⟩ = ⟨0, close + 5⟩ := fun close =>
    Span.cover_of_le (Nat.zero_le _) (Nat.le_add_left 1 (close + 4))
  rw [Text.utf8ByteSize_marked, ← hspan, marked]
  generalize 1 + name.utf8ByteSize + 3 + (Text.quote text).utf8ByteSize = close
  refine .look fun s hs _ _ => ?_
  have hpeek : s.peek.span = ⟨0, 1⟩ := congrArg Token.span (State.peek_of_rest hs)
  refine (decorators_accepts (remarks_quoted name text _ _ _ _ _) rfl).bind fun found hfound => ?_
  refine .expect rfl (by decide) ?_
  rw [← List.nil_append [_]]
  refine (block_at_closer (.inl rfl) (List.forall_mem_nil _) rfl).bind fun body hbody => ?_
  refine .closer rfl (by decide) (.pure ?_)
  rw [hfound, hbody, hpeek]
  rfl

section
variable {e : Expr}

/-- A primary in front of a token that does not go on with it is a whole operation. -/
theorem operation_of_primary (htail : continuesOperation (headKind tail) = false)
    (h : ∀ fuel, Accepts (primary .strict fuel (operation .strict fuel)) ts tail (· = e)) :
    Accepts (operation .strict fuel) ts tail (· = e) := by
  have hstop := continuesAccess_eq_false htail
  -- `tail` starts no call, no field and no right operand, so each reader behind the primary gives back what it got.
  have haccess : ∀ fuel, Accepts (access .strict fuel (operation .strict fuel)) ts tail (· = e) := by
    intro fuel
    refine (h fuel).map fun a ha => ?_
    refine (callTail_accepts (operation_accepts fuel) fuel a .nil (opens_eq_false hstop)).map fun called hcalled => ?_
    rw [hcalled rfl, ha]
    cases fuel with
    | zero => exact .starve
    | succ fuel =>
      refine .look fun s _ hkind _ => ?_
      have hdot : s.kind ≠ .dot := by
        rw [hkind]
        exact (ne_of_class rfl hstop).symm
      rw [if_neg hdot]
      exact .pure rfl
  cases fuel with
  | zero => exact .starve
  | succ fuel =>
    refine (haccess fuel).map fun a ha => ?_
    have hops : AcceptsAccesses (access .strict fuel (operation .strict fuel)) := fun _ _ _ h htail =>
      access_accepts (operation_accepts fuel) h htail
    exact (operationTail_accepts hops fuel a .nil htail).weaken fun b hb => (hb rfl).trans ha

/-- An operation that starts with no parenthesis is a whole expression in front of a token other than `=`. -/
theorem expression_of_operation (hfront : headKind (ts ++ tail) ≠ .leftParen) (htail : headKind tail ≠ .assign)
    (h : Accepts (operation .strict fuel) ts tail (· = e)) :
    Accepts (expression .strict (operation .strict fuel)) ts tail (· = e) := by
  refine .look fun s _ hkind _ => ?_
  have hnames : s.destructuring? = none := by
    rw [State.destructuring?, if_neg (by rw [hkind]; exact hfront)]
  rw [hnames]
  refine h.map fun a ha => .look fun s _ hkind _ => ?_
  rw [if_neg (by rw [hkind]; exact htail)]
  exact .pure ha

/-- What is read as a primary by itself is a whole program. -/
theorem program_of_primary {eof : Token} (heof : eof.kind = .eof)
    (hfront : headKind ts = .stringStart ∨ headKind ts = .leftBracket)
    (h : ∀ fuel, Accepts (primary .strict fuel (operation .strict fuel)) ts [eof] (· = e)) :
    Accepts (program .strict fuel) ts [eof] (· = [e]) := by
  have hlast : headKind [eof] = .eof := heof
  have hne : ts ≠ [] := by
    rintro rfl
    rcases hfront with hfront | hfront <;> cases hfront
  have hexpression : Accepts (expression .strict (operation .strict fuel)) ts [eof] (· = e) := by
    refine expression_of_operation ?_ (by rw [hlast]; decide) (operation_of_primary (by rw [hlast]; rfl) h)
    rw [headKind_append hne]
    rcases hfront with hfront | hfront <;> simp [hfront]
  cases fuel with
  | zero => exact .starve
  | succ rounds =>
    have hafter : headKind ([] ++ [eof]) = .eof := hlast
    rw [← List.append_nil ts, ← List.nil_append (ts ++ [])]
    refine block_next (List.forall_mem_nil _) ?_ ?_ (.inr (.inr hafter)) hexpression
      fun e' he' => (block_at_closer (.inr rfl) (List.forall_mem_nil _) hlast).weaken fun es hes => ?_
    · rcases hfront with hfront | hfront <;> simp [hfront]
    · rcases hfront with hfront | hfront <;> simp [hfront]
    · rw [hes, he']
      rfl

end

end Parser

open Protean.Parser

namespace Expr

/-- What the readers accept is what the text says, since they never starve. -/
theorem parse_of_accepts {text : String} {ts : List Token} {eof : Token} {es : List Expr}
    (hlexed : Token.ofText text = ⟨ts ++ [eof], []⟩)
    (h : ∀ fuel, Accepts (program .strict fuel) ts [eof] (· = es)) :
    parse .strict text = ⟨some es, [], []⟩ := by
  obtain ⟨found, s, hread, hparse⟩ := parse_done .strict text
  have htokens : (Token.ofText text).tokens = ts ++ [eof] := congrArg Tokens.tokens hlexed
  obtain hstarved | ⟨es', s', hread', hpass, rfl⟩ := h _ (.start (Token.ofText text).tokens) htokens
    (ofText_legible text)
  · rw [hread] at hstarved
    cases hstarved
  · rw [hread] at hread'
    cases hread'
    have herrors : s.errors = [] := hpass.errors
    rw [hparse, hlexed, herrors]
    rfl

/-- What a text between quotes is read as. -/
theorem parse_quote (text : String) : parse .strict (Text.quote text) =
    ⟨some [.literal (.placed ⟨0, (Text.quote text).utf8ByteSize⟩) (.string text)], [], []⟩ := by
  refine parse_of_accepts (ofText_quote text) fun _ => program_of_primary rfl (.inl rfl) fun _ => ?_
  refine .look fun s _ hkind _ => ?_
  have hkind : s.peek.kind = .stringStart := hkind
  simp only [hkind]
  rw [← Nat.zero_add (Text.quote text).utf8ByteSize]
  exact string_quoted 0 text

/-- What a function that is marked with a text is read as. -/
theorem parse_marked {name : String} (hname : IsIdentifier name) (text : String) :
    parse .strict (Text.marked name text) =
      ⟨some [.function (.placed ⟨0, (Text.marked name text).utf8ByteSize⟩) [(name, some text)] [] []], [], []⟩ := by
  refine parse_of_accepts (ofText_marked hname text) fun _ => program_of_primary rfl (.inr rfl) fun _ => ?_
  refine .look fun s _ hkind _ => ?_
  have hkind : s.peek.kind = .leftBracket := hkind
  simp only [hkind]
  exact function_marked name text

end Expr

/-- **Escaping is undone.**  A text between quotes is one literal, in which no interpolation starts and which only the
last quote ends.  A program that consists of it is the text itself, and in a mark it is the value of the mark. -/
theorem escaping_is_undone (text : String) :
    Token.ofText (Text.quote text) =
        ⟨Token.quoted 0 text ++ [Token.ending (Text.quote text).utf8ByteSize], []⟩ ∧
      Expr.parse .strict (Text.quote text) =
        ⟨some [.literal (.placed ⟨0, (Text.quote text).utf8ByteSize⟩) (.string text)], [], []⟩ ∧
      ∀ name, IsIdentifier name → Expr.parse .strict (Text.marked name text) =
        ⟨some [.function (.placed ⟨0, (Text.marked name text).utf8ByteSize⟩) [(name, some text)] [] []], [], []⟩ :=
  ⟨ofText_quote text, Expr.parse_quote text, fun _ hname => Expr.parse_marked hname text⟩

/-- A text that would end its literal and start an interpolation, if it were not escaped. -/
theorem escaping_is_undone_interpolation :
    Text.quote "\\$\x7b\"" = "\"\\\\\\$\x7b\\\"\"" ∧
      Expr.parse .strict (Text.quote "\\$\x7b\"") =
        ⟨some [.literal (.placed ⟨0, 9⟩) (.string "\\$\x7b\"")], [], []⟩ ∧
      IsIdentifier "docs" ∧ Expr.parse .strict (Text.marked "docs" "\\$\x7b\"") =
        ⟨some [.function (.placed ⟨0, 22⟩) [("docs", some "\\$\x7b\"")] [] []], [], []⟩ := by
  have hname : IsIdentifier "docs" := ⟨'d', ['o', 'c', 's'], rfl, rfl, List.all_eq_true.mp rfl⟩
  obtain ⟨-, hliteral, hmark⟩ := escaping_is_undone "\\$\x7b\""
  exact ⟨rfl, hliteral, hname, hmark "docs" hname⟩

end Protean
