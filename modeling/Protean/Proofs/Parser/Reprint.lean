import Protean.Proofs.Parser.Grammatical
import Protean.Proofs.Parser.Operand
import Protean.Proofs.Parser.Progress

/-!
# Proofs — Parser — printing and reading again

The tokens of a printed expression are read as the expression, wherever it stands: by the reader of
accesses if it is no assignment, and by the reader of expressions in any case (`readable`).

**Printing and reading again gives the same program** (`print_then_parse`).

* `Lines`: the tokens of expressions on lines of their own, in blocks and in programs.
* `AccessReads.identifier` … `AccessReads.send`: the expressions that operands are made of.
* `ExpressionReads.bind`, `ExpressionReads.store`, `ExpressionReads.destructure`: assignments.
* `Readable`, `readable`: all of it for one expression, by induction on the expression.
-/

namespace Protean

namespace Parser

open Protean.Expr (Printable shapes argsShapes trailingShapes bodyShapes lines strip stripAll
  strip_identifier strip_bracket strip_field strip_call strip_send strip_bind strip_store
  strip_destructure strip_function)

variable {ts us tail : List Shape} {t : Shape} {e : Expr}

/-! ### Blocks and functions

Expressions on lines of their own, in braces or in a program. -/

/-- Tokens of statements with newlines between them; more newlines make no difference. -/
inductive Lines : List Expr → List Shape → Prop where
  | nil : Lines [] []
  | newline {es : List Expr} {ts : List Shape} (h : Lines es ts) :
      Lines es ((.newline, "\n") :: ts)
  | last (e : Expr) : Lines [e] e.shapes
  | cons (e : Expr) {es : List Expr} {ts : List Shape} (h : Lines es ts) :
      Lines (e :: es) (e.shapes ++ (.newline, "\n") :: ts)

theorem lines_bodyShapes : ∀ body : List Expr, Lines body (bodyShapes body)
  | [] => .nil
  | e :: body => .cons e (lines_bodyShapes body)

theorem lines_lines : ∀ exprs : List Expr, Lines exprs (lines exprs)
  | [] => .nil
  | [e] => .last e
  | e :: next :: exprs => .cons e (lines_lines (next :: exprs))

namespace Lines

variable {es : List Expr}

/-- One expression has no more tokens than all lines. -/
theorem length_le (h : Lines es ts) (he : e ∈ es) : e.shapes.length ≤ ts.length := by
  induction h with
  | nil => cases he
  | newline h ih =>
    have hle := ih he
    rw [List.length_cons]
    omega
  | last e =>
    obtain rfl := List.mem_singleton.mp he
    exact Nat.le_refl _
  | cons e h ih =>
    rw [List.length_append, List.length_cons]
    rcases List.mem_cons.mp he with rfl | he
    · omega
    · have hle := ih he
      omega

theorem count_le (h : Lines es ts) (hes : ∀ e ∈ es, e.shapes ≠ []) : es.length ≤ ts.length := by
  induction h with
  | nil => exact Nat.le_refl _
  | newline h ih => exact Nat.le_succ_of_le (ih hes)
  | last e => exact List.length_pos_iff.mpr (hes e List.mem_cons_self)
  | cons e h ih =>
    have hle := ih fun e he => hes e (List.mem_cons_of_mem _ he)
    rw [List.length_append, List.length_cons, List.length_cons]
    omega

end Lines

namespace State

variable {s : State}

/-- Where no separator is next, none is skipped. -/
theorem skipSeparators_stay (h : front s.shapes ≠ .newline ∧ front s.shapes ≠ .semicolon) :
    s.skipSeparators = s := by
  rw [skipSeparators]
  cases hrest : s.rest with
  | nil => rfl
  | cons token r =>
    rw [shapes, hrest] at h
    rw [skipSeparatorsIn]
    split
    · rename_i hkind
      exact absurd hkind h.1
    · rename_i hkind
      exact absurd hkind h.2
    · rfl

/-- A newline is skipped, then the other separators. -/
theorem skipSeparators_newline {text : String} (h : s.shapes = (.newline, text) :: ts) :
    s.skipSeparators = s.advance.skipSeparators := by
  obtain ⟨token, r, hrest, hshape, -⟩ := List.map_eq_cons_iff.mp h
  have hkind : token.kind = .newline := congrArg Prod.fst hshape
  have hadvance : s.advance.rest = r := by
    rw [advance, hrest]
    simp [hkind]
  rw [skipSeparators, hrest, skipSeparatorsIn, hkind, skipSeparators, hadvance]

end State

section
variable {closer : TokenKind} {statement : Parser Expr} {rounds : Nat} {read : List Expr}
  {Q : List Expr → Prop}

/-- A newline in front of statements makes no difference. -/
theorem block_newline (h : Reads (block closer statement (rounds + 1) read) ts tail Q) :
    Reads (block closer statement (rounds + 1) read) ((.newline, "\n") :: ts) tail Q := by
  intro s hs
  obtain ⟨hshapes, herrors, hconsumed⟩ := State.advance_spec hs (by simp)
  obtain ⟨es, s', hread, hshapes', herrors', hconsumed', hQ⟩ := h s.advance hshapes
  refine ⟨es, s', ?_, hshapes', herrors'.trans herrors, ?_, hQ⟩
  · rw [← hread, block_succ, block_succ, State.skipSeparators_newline hs]
  · rw [hconsumed', hconsumed, List.length_cons]
    omega

/-- The loop over statements ends at the end of a block. -/
theorem block_end (htail : front tail = closer) (hcloser : closer = .rightBrace ∨ closer = .eof)
    (hQ : Q read.reverse) : Reads (block closer statement (rounds + 1) read) [] tail Q := by
  intro s hs
  have hstay : s.skipSeparators = s := by
    refine State.skipSeparators_stay ?_
    rw [hs, List.nil_append, htail]
    rcases hcloser with rfl | rfl <;> decide
  have hend : s.atEnd closer = true := by
    rw [State.atEnd, State.kind_eq_front, hs, List.nil_append, htail]
    simp
  refine ⟨read.reverse, s, ?_, hs, rfl, rfl, hQ⟩
  rw [block_succ, hstay, hend, if_pos rfl]

/-- One statement, which ends at a newline or at the end of the block. -/
theorem block_statement {assigned : Bool} {P : Expr → Prop} (hopen : Opening assigned ts)
    (hstatement : Reads statement ts (us ++ tail) P)
    (hcloser : closer = .rightBrace ∨ closer = .eof)
    (hfront : front (us ++ tail) = .newline ∨ front (us ++ tail) = closer)
    (h : ∀ e, P e → Reads (block closer statement rounds (e :: read)) us tail Q) :
    Reads (block closer statement (rounds + 1) read) (ts ++ us) tail Q := by
  intro s hs
  have hshapes : front s.shapes = front ts := by
    rw [hs, List.append_assoc, front_append hopen.ne_nil]
  have hstay : s.skipSeparators = s := by
    refine State.skipSeparators_stay ?_
    rw [hshapes]
    exact ⟨hopen.front_ne _ (by decide), hopen.front_ne _ (by decide)⟩
  have hmore : s.atEnd closer = false := by
    have hne : front ts ≠ closer := by
      rcases hcloser with rfl | rfl <;> exact hopen.front_ne _ (by decide)
    have heof := hopen.front_ne .eof (by decide)
    rw [State.atEnd, State.kind_eq_front, hshapes]
    simp [hne, heof]
  obtain ⟨e, s₁, hread, hshapes₁, herrors₁, hconsumed₁, he⟩ :=
    hstatement s (by rw [hs, List.append_assoc])
  obtain ⟨es, s₂, hread₂, hshapes₂, herrors₂, hconsumed₂, hQ⟩ := h e he s₁ hshapes₁
  -- the statement ends properly and has passed a token, so the next one is read from where it ends
  have hsettle : settle closer s₁ = s₁ := by
    have hproper : (s₁.atSeparator || s₁.atEnd closer) = true := by
      rw [State.atSeparator, State.atEnd, State.kind_eq_front, hshapes₁]
      rcases hfront with hfront | hfront <;> simp [hfront]
    rw [settle, hproper, if_pos rfl]
  have hnext : nextStatement closer s s₁ = s₁ := by
    have hpos := List.length_pos_iff.mpr hopen.ne_nil
    have hpassed : (decide (s₁.consumed = s.consumed)) = false := by
      rw [decide_eq_false_iff_not, hconsumed₁]
      omega
    rw [nextStatement, hpassed]
    rfl
  refine ⟨es, s₂, ?_, hshapes₂, herrors₂.trans herrors₁, ?_, hQ⟩
  · rw [block_succ, hstay, hmore, hread]
    dsimp only
    rw [hsettle, hnext]
    exact hread₂
  · rw [hconsumed₂, hconsumed₁, List.length_append, Nat.add_assoc]

/-- The loop over statements reads the lines as the expressions they were printed from. -/
theorem block_reads {es : List Expr} (hlines : Lines es ts) (hrounds : es.length < rounds)
    (hcloser : closer = .rightBrace ∨ closer = .eof) (htail : front tail = closer)
    (hes : ∀ e ∈ es, Opening e.isAssignment e.shapes ∧ ∀ tail, front tail = .newline ∨
      front tail = closer → Reads statement e.shapes tail (·.strip = e.strip)) :
    Reads (block closer statement rounds read) ts tail
      fun es' => stripAll es' = stripAll (read.reverse ++ es) := by
  -- the induction is on the lines, and each of them takes a round
  induction hlines generalizing rounds read with
  | nil =>
    obtain ⟨rounds, rfl⟩ := Nat.exists_eq_add_of_le' (Nat.zero_lt_of_lt hrounds)
    exact block_end htail hcloser (by rw [List.append_nil])
  | newline h ih =>
    obtain ⟨rounds, rfl⟩ := Nat.exists_eq_add_of_le' (Nat.zero_lt_of_lt hrounds)
    exact block_newline (ih hrounds hes)
  -- the last line has no newline behind it
  | last e =>
    obtain ⟨rounds, rfl⟩ := Nat.exists_eq_add_of_le' (show 2 ≤ rounds from hrounds)
    obtain ⟨hopen, hstatement⟩ := hes e List.mem_cons_self
    rw [← List.append_nil e.shapes]
    refine block_statement hopen (hstatement _ (.inr htail)) hcloser (.inr htail) fun e' he' => ?_
    refine block_end htail hcloser ?_
    simp [Expr.stripAll_eq_map, he']
  | @cons e es ts h ih =>
    obtain ⟨rounds, rfl⟩ := Nat.exists_eq_add_of_le'
      (show 2 ≤ rounds from Nat.le_trans (by simp) hrounds)
    obtain ⟨⟨hopen, hstatement⟩, hrest⟩ := List.forall_mem_cons.mp hes
    refine block_statement hopen (hstatement _ (.inl rfl)) hcloser (.inl rfl) fun e' he' => ?_
    refine block_newline ((ih ?_ hrest).weaken fun es' hes' => ?_)
    · rw [List.length_cons] at hrounds
      omega
    · rw [hes']
      simp [Expr.stripAll_eq_map, he']

end

/-- Decorators, and the statements between braces. -/
theorem function_shapes (a : Anchor) (decorators : Decorators) (parameters : List Parameter)
    (body : List Expr) : ∃ ts, Lines body ts ∧ shapes (.function a decorators parameters body) =
      decorators.shapes ++ (.leftBrace, "\x7b") :: (ts ++ [(.rightBrace, "\x7d")]) := by
  cases body with
  | nil => exact ⟨[], .nil, rfl⟩
  | cons e body =>
    refine ⟨_, .newline (lines_bodyShapes (e :: body)), ?_⟩
    simp [shapes, bodyShapes]

theorem FunctionReads.function {a : Anchor} {marks : Decorators} {body : List Expr}
    (hmarks : marks.Writable)
    (hbody : ∀ e ∈ body, Opening e.isAssignment e.shapes ∧ ExpressionReads e) :
    FunctionReads (.function a marks [] body) := by
  intro fuel tail hfuel
  obtain ⟨ts, hlines, hshapes⟩ := function_shapes a marks [] body
  rw [hshapes] at hfuel ⊢
  have hcount := hlines.count_le fun e he => (hbody e he).1.ne_nil
  simp only [List.length_append, List.length_cons] at hfuel
  have hstatements : ∀ e ∈ body, Opening e.isAssignment e.shapes ∧ ∀ tail, front tail = .newline ∨
      front tail = .rightBrace → Reads (expression .strict (operation .strict fuel)) e.shapes tail
        (·.strip = e.strip) := by
    intro e he
    have hle := hlines.length_le he
    refine ⟨(hbody e he).1, fun tail htail => (hbody e he).2 fuel tail (by omega) ?_ ?_⟩
    · rcases htail with htail | htail <;> rw [htail] <;> rfl
    · rcases htail with htail | htail <;> rw [htail] <;> decide
  rw [Parser.function]
  refine .state fun s _ => .bind (decorators_reads hmarks (by omega) rfl) fun marks' hmarks' => ?_
  refine .expect rfl (by decide) fun _ _ => ?_
  refine .bind (block_reads hlines (by omega) (.inl rfl) rfl hstatements) fun body' hbody' => ?_
  refine .closer rfl (by decide) fun stop => .pure ?_
  rw [strip_function, strip_function, hmarks', hbody', List.reverse_nil, List.nil_append]

/-! ### Accesses

Every kind of operand, and everything that may stand behind one. -/

namespace AccessReads

theorem identifier (a : Anchor) (name : String) : AccessReads (.identifier a name) := by
  refine .of_primary fun fuel tail _ => ?_
  rw [primary]
  refine .state fun s hs => ?_
  have hkind := State.kind_eq hs
  have hlexeme : s.peek.lexeme = name := State.lexeme_eq hs
  have hread : Reads (do
      let _ ← next
      return Expr.identifier (.placed s.peek.span) s.peek.lexeme) [nameShape name] tail
        (·.strip = strip (.identifier a name)) := by
    refine .next (nameShape_ne name (by decide) (by decide)) fun _ _ => .pure ?_
    rw [strip_identifier, strip_identifier, hlexeme]
  rcases nameShape_kind name with hname | hname
  · simp only [hkind, hname]
    exact hread
  · simp only [hkind, hname]
    exact hread

theorem number (a : Anchor) {x : Float} (hx : Number.Legible x) :
    AccessReads (.literal a (.number x)) := by
  refine .of_primary fun fuel tail _ => ?_
  rw [primary]
  refine .state fun s hs => ?_
  have hkind : s.peek.kind = .number := State.kind_eq hs
  have hlexeme : s.peek.lexeme = Number.render x := State.lexeme_eq hs
  simp only [hkind]
  refine .next (by simp) fun _ _ => ?_
  rw [hlexeme, hx.2]
  exact .pure rfl

theorem string (a : Anchor) (text : String) : AccessReads (.literal a (.string text)) := by
  refine .of_primary fun fuel tail hfuel => ?_
  rw [primary]
  refine .state fun s hs => ?_
  have hkind : s.peek.kind = .stringStart := State.kind_eq hs
  simp only [hkind]
  have htwo : 2 ≤ fuel := by
    simp only [shapes, Lexer.textShapes, List.length_append, List.length_cons] at hfuel
    omega
  refine (string_reads htwo text).weaken ?_
  rintro e' ⟨a', rfl⟩
  rfl

theorem function (he : e.isFunction = true) (h : FunctionReads e) : AccessReads e := by
  refine .of_primary fun fuel tail hfuel => ?_
  rw [primary]
  refine .state fun s hs => ?_
  obtain ⟨hne, hfront⟩ := front_function he
  have hkind : s.peek.kind = front e.shapes := by
    rw [← front_append hne, ← hs]
    exact State.kind_eq_front s
  rcases hfront with hfront | hfront
  · simp only [hkind, hfront]
    exact h fuel tail hfuel
  · simp only [hkind, hfront]
    exact h fuel tail hfuel

theorem bracket (a : Anchor) {inner : Expr} (h : ExpressionReads inner) :
    AccessReads (.bracket a inner) := by
  refine .of_primary fun fuel tail hfuel => ?_
  rw [primary]
  refine .state fun s hs => ?_
  have hkind : s.peek.kind = .leftParen := State.kind_eq hs
  simp only [hkind]
  simp only [shapes, List.length_append, List.length_cons, List.cons_append] at hfuel ⊢
  refine .next (by simp) fun _ _ => .bind (h fuel _ (by omega) rfl (by simp)) fun inner' hinner' => ?_
  refine .closer rfl (by decide) fun stop => .pure ?_
  rw [strip_bracket, strip_bracket, hinner']

theorem field {a : Anchor} {target : Expr} {key : Key} {span : Option Span}
    (h : AccessReads target) (hkey : key.Writable) : AccessReads (.field a target key span) := by
  intro fuel us tail Q hfuel hbrace hbracket hparen hrest
  have hlength : (shapes (.field a target key span)).length = target.shapes.length + 2 := by
    simp [shapes]
  have hfront : NoArguments (front (us ++ tail)) := ⟨hparen rfl, hbrace, hbracket⟩
  rw [shapes, List.append_assoc, List.cons_append, List.singleton_append]
  -- the target is not called, and the field is not called either
  refine h fuel _ tail Q (by omega) (by simp) (by simp) (by simp) fun e' r₁ r₂ he' hr₁ hr₂ => ?_
  refine (callTail_stop (by omega) (noArguments_dot _)).mpr ?_
  refine accessTail_field (by omega) hkey hfront fun anchor span' => ?_
  have hstrip : strip (.field anchor e' key span') = strip (.field a target key span) := by
    rw [strip_field, strip_field, he']
  exact (callTail_stop (by omega) hfront).mp (hrest _ fuel (r₂ - 1) hstrip (by omega) (by omega))

/-- A call of an operand that is no field, so that it is not the call of a method. -/
theorem call {a : Anchor} {target : Expr} {args : List (Argument Expr)} {fs : List Expr}
    (h : AccessReads target) (hfield : target.isField = false)
    (hargs : ∀ arg ∈ args, OperandReads arg.value ∧ Opening false arg.value.shapes)
    (hfs : ∀ f ∈ fs, f.isFunction = true ∧ FunctionReads f) : AccessReads (.call a target args fs) := by
  intro fuel us tail Q hfuel hbrace hbracket _ hrest
  have hlength : (shapes (.call a target args fs)).length = target.shapes.length +
      (separated (argsShapes args)).length + (trailingShapes fs).length + 2 := by
    simp [shapes]
    omega
  rw [shapes, List.append_assoc, List.append_assoc]
  refine h fuel _ tail Q (by omega) (by simp) (by simp) (by simp [hfield]) fun e' r₁ r₂ he' hr₁ hr₂ => ?_
  rw [← List.append_assoc]
  refine callTail_call (by omega) (arguments_reads hargs hfs (by omega) hbrace hbracket) ?_
  rintro args' anchor ⟨hargs', hfs'⟩
  refine hrest _ (r₁ - 1) r₂ ?_ (by omega) (by omega)
  rw [strip_call, strip_call, he', hargs', hfs']

theorem send {a : Anchor} {target : Expr} {key : Key} {span : Option Span}
    {args : List (Argument Expr)} {fs : List Expr} (h : AccessReads target) (hkey : key.Writable)
    (hargs : ∀ arg ∈ args, OperandReads arg.value ∧ Opening false arg.value.shapes)
    (hfs : ∀ f ∈ fs, f.isFunction = true ∧ FunctionReads f) :
    AccessReads (.send a target key span args fs) := by
  intro fuel us tail Q hfuel hbrace hbracket _ hrest
  have hlength : (shapes (.send a target key span args fs)).length = target.shapes.length +
      (separated (argsShapes args)).length + (trailingShapes fs).length + 4 := by
    simp [shapes]
    omega
  rw [shapes, List.append_assoc, List.append_assoc]
  refine h fuel _ tail Q (by omega) (by simp) (by simp) (by simp) fun e' r₁ r₂ he' hr₁ hr₂ => ?_
  refine (callTail_stop (by omega) (noArguments_dot _)).mpr ?_
  rw [← List.append_assoc]
  -- what is sent may be called at once, so the loop over calls starts anew
  refine accessTail_send (by omega) hkey (arguments_reads hargs hfs (by omega) hbrace hbracket) ?_
  rintro args' anchor span' ⟨hargs', hfs'⟩
  refine hrest _ fuel (r₂ - 1) ?_ (by omega) (by omega)
  rw [strip_send, strip_send, he', hargs', hfs']

end AccessReads

/-! ### Assignments

The three kinds of assignments, none of which is taken for another. -/

section
variable {a : Anchor} {value : Expr} {fuel : Nat}

/-- The target of an assignment, the sign and the value. -/
theorem assignment_reads (target : Expr) {Q : Expr → Prop}
    (hnames : ∀ s : State, s.shapes = target.shapes ++ (.assign, "=") :: value.shapes ++ tail →
      s.destructuring? = none)
    (htarget : OperandReads target) (hvalue : OperandReads value)
    (hfuel : target.shapes.length + value.shapes.length + 1 < fuel)
    (hstop : stops (front tail) = true)
    (h : ∀ lhs' value' equals, lhs'.strip = target.strip → value'.strip = value.strip →
      Reads (assignment .strict lhs' value' equals) [] tail Q) :
    Reads (expression .strict (operation .strict fuel))
      (target.shapes ++ (.assign, "=") :: value.shapes) tail Q := by
  rw [expression]
  refine .state fun s hs => ?_
  rw [hnames s hs]
  refine .bind (htarget fuel _ (by omega) rfl) fun lhs' hlhs' => .state fun s hs => ?_
  have hkind : s.kind = .assign := State.kind_eq hs
  rw [if_pos hkind]
  refine .next (by simp) fun equals _ => .map (hvalue fuel tail (by omega) hstop) fun value' hvalue' => ?_
  exact h _ _ _ hlhs' hvalue'

theorem ExpressionReads.bind {name : String} {span : Option Span} (h : OperandReads value) :
    ExpressionReads (.bind a name span value) := by
  intro fuel tail hfuel hstop _
  rw [shapes, List.length_cons, List.length_cons] at hfuel
  have hname : OperandReads (.identifier a name) := (AccessReads.identifier a name).operand
  refine assignment_reads (.identifier a name) (fun s hs => ?_) hname h ?_ hstop ?_
  · rw [State.destructuring?, if_neg]
    rw [State.kind_eq_front, hs]
    exact nameShape_ne name (by decide) (by decide)
  · rw [shapes, List.length_singleton]
    omega
  · intro lhs' value' equals hlhs' hvalue'
    cases lhs' with
    | identifier a' name' =>
      obtain ⟨-, rfl⟩ := Expr.identifier.inj hlhs'
      refine .pure ?_
      rw [strip_bind, strip_bind, hvalue']
    | _ => cases hlhs'

theorem ExpressionReads.store {target : Expr} {key : Key} {span : Option Span}
    (htarget : AccessReads target) (he : target.Every Printable) (ha : target.isAssignment = false)
    (hkey : key.Writable) (h : OperandReads value) :
    ExpressionReads (.store a target key span value) := by
  intro fuel tail hfuel hstop _
  have hfield : OperandReads (.field a target key span) := (AccessReads.field htarget hkey).operand
  have hshapes : shapes (.store a target key span value) =
      shapes (.field a target key span) ++ (.assign, "=") :: value.shapes := by
    simp [shapes]
  rw [hshapes, List.length_append, List.length_cons] at hfuel
  rw [hshapes]
  refine assignment_reads (.field a target key span) (fun s hs => ?_) hfield h (by omega) hstop ?_
  · rw [shapes, List.append_assoc, List.append_assoc] at hs
    exact not_destructuring he ha (by simp) hs
  · intro lhs' value' equals hlhs' hvalue'
    cases lhs' with
    | field a' target' key' span' =>
      obtain ⟨-, htarget', rfl, -⟩ := Expr.field.inj hlhs'
      refine .pure ?_
      rw [strip_store, strip_store, hvalue', htarget']
    | _ => cases hlhs'

/-- Each destructured name has a token, and there is a comma between two of them. -/
theorem length_separated_names {names : List String} (hnames : names ≠ []) :
    (separated (names.map fun name => [(TokenKind.identifier, name)])).length + 1 =
      2 * names.length := by
  induction names with
  | nil => exact absurd rfl hnames
  | cons name names ih =>
    cases names with
    | nil => rfl
    | cons next names =>
      have hlength := ih (by simp)
      simp only [List.map_cons, separated, List.length_append, List.length_cons, List.length_nil]
        at hlength ⊢
      omega

/-- No token of destructured names is the end of the text. -/
theorem mem_separated_names {names : List String}
    (ht : t ∈ separated (names.map fun name => [(TokenKind.identifier, name)])) : t.1 ≠ .eof := by
  induction names with
  | nil => cases ht
  | cons name names ih =>
    cases names with
    | nil =>
      rw [List.mem_singleton.mp ht]
      simp
    | cons next names =>
      rcases List.mem_cons.mp ht with rfl | ht
      · simp
      · rcases List.mem_cons.mp ht with rfl | ht
        · simp
        · exact ih ht

theorem ExpressionReads.destructure {names : List String} (hnames : names ≠ [])
    (h : OperandReads value) : ExpressionReads (.destructure a names value) := by
  intro fuel tail hfuel hstop _
  have hlength := length_separated_names hnames
  have hshapes : shapes (.destructure a names value) = (.leftParen, "(") ::
      (separated (names.map fun name => [(.identifier, name)]) ++ [(.rightParen, ")")] ++
        (.assign, "=") :: value.shapes) := by
    simp [shapes]
  rw [hshapes] at hfuel ⊢
  simp only [List.length_cons, List.length_append, List.length_nil] at hfuel
  rw [expression]
  refine .state fun s hs => ?_
  have hahead : s.destructuring? = some names := by
    obtain ⟨token, r, hrest, htoken, hr⟩ := List.map_eq_cons_iff.mp hs
    have hkind : s.kind = .leftParen := State.kind_eq hs
    have hahead : r.map Token.shape = separated (names.map fun name => [(.identifier, name)]) ++
        (.rightParen, ")") :: (.assign, "=") :: (value.shapes ++ tail) := hr.trans (by simp)
    rw [State.destructuring?, if_pos hkind, hrest]
    exact destructuredNames_shapes hnames hahead
  rw [hahead]
  -- each name is passed with the comma or the parenthesis behind it
  refine .next (by simp) fun lparen _ => ?_
  have hpass : Reads (pass (2 * names.length))
      (separated (names.map fun name => [(.identifier, name)]) ++ [(.rightParen, ")")])
      ((.assign, "=") :: value.shapes ++ tail) fun _ => True := by
    have hcount : 2 * names.length = (separated (names.map fun name => [(.identifier, name)]) ++
        [(TokenKind.rightParen, ")")]).length := by
      rw [List.length_append, List.length_singleton, hlength]
    rw [hcount]
    refine .pass fun t ht => ?_
    rcases List.mem_append.mp ht with ht | ht
    · exact mem_separated_names ht
    · rw [List.mem_singleton.mp ht]
      simp
  refine .bind hpass fun _ _ => .next (by simp) fun equals _ => ?_
  refine .map (h fuel tail (by omega) hstop) fun value' hvalue' => .pure ?_
  rw [strip_destructure, strip_destructure, hvalue']

end

/-! ### Whole programs

The induction on the expression, and what follows for programs and texts. -/

/-- What the readers make of a printed expression. -/
structure Readable (e : Expr) : Prop where
  access : e.isAssignment = false → AccessReads e
  function : e.isFunction = true → FunctionReads e
  expression : ExpressionReads e

theorem Readable.of_access (he : e.Every Printable) (ha : e.isAssignment = false)
    (hf : e.isFunction = false) (h : AccessReads e) : Readable e where
  access _ := h
  function hfunction := absurd hfunction (by rw [hf]; decide)
  expression := h.operand.expression he ha

/-- Expressions that only the reader of expressions reads. -/
theorem Readable.of_expression (ha : e.isAssignment = true) (hf : e.isFunction = false)
    (h : ExpressionReads e) : Readable e where
  access hassign := absurd hassign (by rw [ha]; decide)
  function hfunction := absurd hfunction (by rw [hf]; decide)
  expression := h

/-- A readable expression that is no assignment can stand as an argument. -/
theorem Readable.argument {arg : Argument Expr} (h : Readable arg.value)
    (he : arg.value.Every Printable) (ha : arg.value.isAssignment = false) :
    OperandReads arg.value ∧ Opening false arg.value.shapes :=
  ⟨(h.access ha).operand, ha ▸ opening he⟩

/-- **Printed expressions are read as what they are.** -/
theorem readable (he : e.Every Printable) : Readable e := by
  induction he with
  | @identifier a name h => exact .of_access (.identifier h) rfl rfl (.identifier a name)
  | @literal a value h =>
    cases value with
    | number x => exact .of_access (.literal h) rfl rfl (.number a h.2)
    | string text => exact .of_access (.literal h) rfl rfl (.string a text)
  | @bracket a inner h hinner ih =>
    exact .of_access (.bracket h hinner) rfl rfl (.bracket a ih.expression)
  | @field a target key span h htarget ih =>
    exact .of_access (.field h htarget) rfl rfl (.field (ih.access h.1.1) h.1.2)
  | @call a target args fs h htarget hargs hfs ih iha ihf =>
    obtain ⟨htarget', hfield, hw⟩ := h.1
    have hr : ∀ arg ∈ args, arg.value.isAssignment = false := h.2
    refine .of_access (.call h htarget hargs hfs) rfl rfl (.call (ih.access htarget') hfield ?_ ?_)
    · exact fun arg hmem => (iha arg hmem).argument (hargs arg hmem) (hr arg hmem)
    · exact fun f hmem => ⟨hw.2 f hmem, (ihf f hmem).function (hw.2 f hmem)⟩
  | @send a target key span args fs h htarget hargs hfs ih iha ihf =>
    obtain ⟨htarget', hkey, hw⟩ := h.1
    have hr : ∀ arg ∈ args, arg.value.isAssignment = false := h.2.2
    refine .of_access (.send h htarget hargs hfs) rfl rfl (.send (ih.access htarget') hkey ?_ ?_)
    · exact fun arg hmem => (iha arg hmem).argument (hargs arg hmem) (hr arg hmem)
    · exact fun f hmem => ⟨hw.2 f hmem, (ihf f hmem).function (hw.2 f hmem)⟩
  | @bind a name span value h _ ih =>
    exact .of_expression rfl rfl (.bind (ih.access h.1.2).operand)
  | @store a target key span value h htarget _ iht ihv =>
    exact .of_expression rfl rfl
      (.store (iht.access h.1.1) htarget h.1.1 h.1.2.1 (ihv.access h.1.2.2).operand)
  | @destructure a names value h _ ih =>
    exact .of_expression rfl rfl (.destructure h.1.1 (ih.access h.1.2.2).operand)
  | @function a marks parameters body h hbody ih =>
    obtain ⟨hmarks, hparameters⟩ := h.1
    subst hparameters
    -- a function is read by itself where it trails a call, and as a primary everywhere else
    have hfunction : FunctionReads (.function a marks [] body) :=
      .function hmarks fun e hmem => ⟨opening (hbody e hmem), (ih e hmem).expression⟩
    have haccess := AccessReads.function rfl hfunction
    exact ⟨fun _ => haccess, fun _ => hfunction, haccess.operand.expression (.function h hbody) rfl⟩
  | builtin h => exact absurd h.1 id

/-- The lines of a program are read as the program. -/
theorem program_reads {exprs : List Expr} (h : ∀ e ∈ exprs, e.Every Printable) {fuel : Nat}
    (hfuel : (lines exprs).length + 1 < fuel) (htail : front tail = .eof) :
    Reads (program .strict fuel) (lines exprs) tail (stripAll · = stripAll exprs) := by
  have hlines := lines_lines exprs
  have hcount := hlines.count_le fun e he => (opening (h e he)).ne_nil
  refine block_reads hlines (by omega) (.inr rfl) htail fun e he => ?_
  have hle := hlines.length_le he
  refine ⟨opening (h e he), fun tail htail => (readable (h e he)).expression fuel tail (by omega) ?_ ?_⟩
  · rcases htail with htail | htail <;> rw [htail] <;> rfl
  · rcases htail with htail | htail <;> rw [htail] <;> decide

end Parser

open Protean.Expr in
/-- **Printing and reading again gives the same program.**  What is read from a text without errors,
and whose nodes can be read when they are printed, is printed as a text that is read without errors,
and as the same expressions but for where they stand. -/
theorem print_then_parse {text : String} {exprs : List Expr}
    (hparse : (parse .strict text).exprs = some exprs) (hprint : ∀ e ∈ exprs, e.Every Reprintable) :
    ∃ again, parse .strict (printAll exprs) = ⟨some again, [], []⟩ ∧
      stripAll again = stripAll exprs := by
  have hprintable : ∀ e ∈ exprs, e.Every Printable := fun e he =>
    (grammatical_of_parse hparse e he).and (hprint e he)
  obtain ⟨hshapes, herrors⟩ := ofText_printAll hprintable
  have hlength : (Token.ofText (printAll exprs)).tokens.length = (lines exprs).length + 1 := by
    rw [← List.length_map, hshapes, List.length_append, List.length_singleton]
  have hreads : (Parser.program .strict ((Token.ofText (printAll exprs)).tokens.length + 2)).Reads
      (lines exprs) [(.eof, "")] (stripAll · = stripAll exprs) :=
    Parser.program_reads hprintable (by omega) rfl
  obtain ⟨again, s, hread, -, hnoted, -, hagain⟩ :=
    hreads (.start (Token.ofText (printAll exprs)).tokens) hshapes
  refine ⟨again, ?_, hagain⟩
  have hclean : s.errors = [] := hnoted
  rw [parse]
  simp [hread, herrors, hclean]

open Protean.Expr in
/-- An operator between a field and a function, which is printed as a call over three lines. -/
theorem print_then_parse_operator : ∃ exprs again,
    (parse .strict "p.q = a.g - \x7b x.f(k = \"s\") \x7b \x7d \x7d").exprs = some exprs ∧
      printAll exprs = "p.q = -(a.g, \x7b\nx.f(k = \"s\") \x7b \x7d\n\x7d)" ∧
        parse .strict (printAll exprs) = ⟨some again, [], []⟩ ∧ stripAll again = stripAll exprs := by
  have hparse : (parse .strict "p.q = a.g - \x7b x.f(k = \"s\") \x7b \x7d \x7d").exprs = some
      [.store (.placed ⟨0, 32⟩) (.identifier (.placed ⟨0, 1⟩) "p") (.name "q") (some ⟨2, 3⟩)
        (.call (.placed ⟨6, 32⟩) (.identifier (.placed ⟨10, 11⟩) "-")
          [⟨none, .field (.placed ⟨6, 9⟩) (.identifier (.placed ⟨6, 7⟩) "a") (.name "g")
              (some ⟨8, 9⟩)⟩,
            ⟨none, .function (.placed ⟨12, 32⟩) [] []
              [.send (.placed ⟨14, 30⟩) (.identifier (.placed ⟨14, 15⟩) "x") (.name "f")
                (some ⟨16, 17⟩) [⟨some "k", .literal (.placed ⟨22, 25⟩) (.string "s")⟩]
                [.function (.placed ⟨27, 30⟩) [] [] []]]⟩] [])] := rfl
  have hprint := print_then_parse hparse <| by
    rw [List.forall_mem_singleton]
    refine .store (by simp [Reprintable, KeyFits]) (.identifier trivial)
      (.call ?_ (.identifier trivial) ?_ (List.forall_mem_nil _))
    · simp [Reprintable, isAssignment]
    · simp only [List.forall_mem_cons]
      refine ⟨.field (by simp [Reprintable, KeyFits]) (.identifier trivial), .function trivial ?_,
        List.forall_mem_nil _⟩
      rw [List.forall_mem_singleton]
      refine .send ⟨by simp [KeyFits], ?_⟩ (.identifier trivial) ?_ ?_
      · simp [isAssignment]
      · rw [List.forall_mem_singleton]
        exact .literal trivial
      · rw [List.forall_mem_singleton]
        exact .function trivial (List.forall_mem_nil _)
  obtain ⟨again, hagain, hstrip⟩ := hprint
  exact ⟨_, again, hparse, rfl, hagain, hstrip⟩

end Protean
