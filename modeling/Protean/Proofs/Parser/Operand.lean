import Protean.Proofs.Parser.Opening

/-!
# Proofs — Parser — reading operands again

The readers of calls and fields go from left to right while the tree of `a.b(c).d` is nested to the
left.  So what is said of the reader of accesses (`AccessReads`) is how it goes on behind an operand:
with the operand in hand and the loops over calls and fields still to come.

* `AccessReads`, `OperandReads`, `FunctionReads`, `ExpressionReads`: that a reader reads the printed tokens of a tree.
* `NoArguments`, `stops`: tokens that do not go on with a call, or with an operand at all.
* `argumentList_reads`, `trailing_reads`: the arguments of a call, and the functions behind it.
-/

namespace Protean

namespace Parser

open Protean.Expr (Printable shapes argsShapes argumentShapes trailingShapes strip stripAll
  stripArgs)

variable {ts us tail : List Shape} {t : Shape} {e : Expr}

/-! ### Calls and fields

The loops over calls and fields, one round at a time, with the operand in hand. -/

section
variable {operand : Parser Expr} {fuel rounds : Nat} {Q : Expr → Prop} {g : Expr → Parser Expr}

/-- Where no argument starts. -/
def NoArguments (kind : TokenKind) : Prop := kind ≠ .leftParen ∧ kind ≠ .leftBrace ∧ kind ≠ .leftBracket

/-- A dot does not go on with a call. -/
theorem noArguments_dot (ts : List Shape) : NoArguments (front ((.dot, ".") :: ts)) :=
  ⟨by simp, by simp, by simp⟩

/-- In front of such a token no arguments are read. -/
theorem startsArguments_eq_false {s : State} (h : NoArguments (front s.shapes)) :
    s.startsArguments = false := by
  obtain ⟨hparen, hbrace, hbracket⟩ := h
  rw [State.startsArguments, State.kind_eq_front]
  simp [hparen, hbrace, hbracket]

/-- Where no argument starts, nothing is called. -/
theorem callTail_stop (hrounds : 0 < rounds) (hfront : NoArguments (front (us ++ tail))) :
    Reads (callTail .strict fuel operand rounds e >>= g) us tail Q ↔ Reads (g e) us tail Q := by
  obtain ⟨rounds, rfl⟩ := Nat.exists_eq_add_of_le' hrounds
  have hsame : ∀ s : State, s.shapes = us ++ tail →
      (callTail .strict fuel operand (rounds + 1) e >>= g) s = g e s := by
    intro s hs
    have hkind : s.startsArguments = false := startsArguments_eq_false (hs ▸ hfront)
    rw [callTail, bind_assoc]
    show ((if s.startsArguments then _ else _) >>= g) s = _
    rw [hkind]
    rfl
  refine forall₂_congr fun s hs => ?_
  rw [hsame s hs]

theorem callTail_call {P : Arguments → Prop} (hrounds : 0 < rounds)
    (hargs : Reads (arguments .strict fuel operand) ((.leftParen, "(") :: ts) (us ++ tail) P)
    (h : ∀ a anchor, P a → Reads (callTail .strict fuel operand (rounds - 1)
      (.call anchor e a.args a.trailing) >>= g) us tail Q) :
    Reads (callTail .strict fuel operand rounds e >>= g) ((.leftParen, "(") :: ts ++ us) tail Q := by
  obtain ⟨rounds, rfl⟩ := Nat.exists_eq_add_of_le' hrounds
  rw [callTail, bind_assoc]
  refine .state fun s hs => ?_
  have hkind : s.startsArguments = true := by
    rw [State.startsArguments, State.kind_eq_front, hs]
    rfl
  rw [hkind, if_pos rfl, bind_assoc]
  exact .bind hargs fun a ha => h a _ ha

/-- The loop over fields ends where no dot follows. -/
theorem accessTail_stop (hrounds : 0 < rounds) (hfront : front tail ≠ .dot) :
    Reads (accessTail .strict fuel operand rounds e) [] tail (· = e) := by
  obtain ⟨rounds, rfl⟩ := Nat.exists_eq_add_of_le' hrounds
  rw [accessTail]
  refine .state fun s hs => ?_
  have hkind : s.kind ≠ .dot := by
    rw [State.kind_eq_front, hs]
    exact hfront
  rw [if_neg hkind]
  exact .pure rfl

/-- A dot and a key, and what follows from there. -/
theorem accessTail_dot {key : Key} (hrounds : 0 < rounds) (hkey : key.Writable)
    (h : ∀ (start keySpan : Span) (s : State), s.shapes = us ++ tail → Reads
      (if s.startsArguments then do
        let a ← arguments .strict fuel operand
        let called ← callTail .strict fuel operand fuel
          (.send (.placed (start.cover a.stop)) e key (some keySpan) a.args a.trailing)
        accessTail .strict fuel operand (rounds - 1) called
      else accessTail .strict fuel operand (rounds - 1)
        (.field (.placed (start.cover keySpan)) e key (some keySpan))) us tail Q) :
    Reads (accessTail .strict fuel operand rounds e) ((.dot, ".") :: key.shape :: us) tail Q := by
  obtain ⟨rounds, rfl⟩ := Nat.exists_eq_add_of_le' hrounds
  rw [accessTail]
  refine .state fun s hs => ?_
  have hkind : s.kind = .dot := State.kind_eq hs
  rw [if_pos hkind]
  refine .next (by simp) fun dot _ => ?_
  refine .cons (fieldKey_reads hkey dot.span) fun r hkey' => ?_
  obtain ⟨key', keySpan⟩ := r
  obtain rfl : key' = key := hkey'
  exact .state fun s hs => h _ keySpan s hs

/-- One round of the loop over fields reads a field. -/
theorem accessTail_field {key : Key} (hrounds : 0 < rounds) (hkey : key.Writable)
    (hfront : NoArguments (front (us ++ tail)))
    (h : ∀ anchor span, Reads (accessTail .strict fuel operand (rounds - 1)
      (.field anchor e key span)) us tail Q) :
    Reads (accessTail .strict fuel operand rounds e) ((.dot, ".") :: key.shape :: us) tail Q := by
  refine accessTail_dot hrounds hkey fun start keySpan s hs => ?_
  rw [startsArguments_eq_false (hs ▸ hfront)]
  exact h _ _

/-- One round of the loop over fields reads a field that is called. -/
theorem accessTail_send {key : Key} {P : Arguments → Prop} (hrounds : 0 < rounds)
    (hkey : key.Writable)
    (hargs : Reads (arguments .strict fuel operand) ((.leftParen, "(") :: ts) (us ++ tail) P)
    (h : ∀ a anchor span, P a → Reads (callTail .strict fuel operand fuel
      (.send anchor e key span a.args a.trailing) >>= accessTail .strict fuel operand (rounds - 1))
        us tail Q) :
    Reads (accessTail .strict fuel operand rounds e)
      ((.dot, ".") :: key.shape :: (.leftParen, "(") :: ts ++ us) tail Q := by
  refine accessTail_dot hrounds hkey fun start keySpan s hs => ?_
  have hkind : s.startsArguments = true := by
    rw [State.startsArguments, State.kind_eq_front, hs]
    rfl
  rw [hkind]
  exact .bind hargs fun a ha => h a _ _ ha

end

/-! ### What is read again

The properties that are shown by induction on the expression. -/

/-- What may follow an operand: nothing that belongs to it. -/
def stops : TokenKind → Bool
  | .assign | .comma | .rightParen | .rightBrace | .newline | .eof => true
  | _ => false

/-- The reader of accesses reads the tokens of `e` and goes on behind it. -/
def AccessReads (e : Expr) : Prop :=
  ∀ (fuel : Nat) (us tail : List Shape) (Q : Expr → Prop), e.shapes.length < fuel →
    front (us ++ tail) ≠ .leftBrace → front (us ++ tail) ≠ .leftBracket →
      (e.isField = true → front (us ++ tail) ≠ .leftParen) →
        (∀ (e' : Expr) (r₁ r₂ : Nat), e'.strip = e.strip → fuel ≤ r₁ + e.shapes.length →
          fuel ≤ r₂ + e.shapes.length →
            Reads (callTail .strict fuel (operation .strict fuel) r₁ e' >>=
              accessTail .strict fuel (operation .strict fuel) r₂) us tail Q) →
          Reads (access .strict fuel (operation .strict fuel)) (e.shapes ++ us) tail Q

/-- Where operations are read, the tokens of `e` are read as `e`. -/
def OperandReads (e : Expr) : Prop :=
  ∀ (fuel : Nat) (tail : List Shape), e.shapes.length + 1 < fuel → stops (front tail) = true →
    Reads (operation .strict fuel) e.shapes tail (·.strip = e.strip)

/-- Where functions are read, the tokens of `e` are read as `e`. -/
def FunctionReads (e : Expr) : Prop :=
  ∀ (fuel : Nat) (tail : List Shape), e.shapes.length < fuel →
    Reads (function .strict fuel (operation .strict fuel)) e.shapes tail (·.strip = e.strip)

/-- Where expressions are read, the tokens of `e` are read as `e`. -/
def ExpressionReads (e : Expr) : Prop :=
  ∀ (fuel : Nat) (tail : List Shape), e.shapes.length + 1 < fuel → stops (front tail) = true →
    front tail ≠ .assign →
      Reads (expression .strict (operation .strict fuel)) e.shapes tail (·.strip = e.strip)

/-- Behind an operand that stops there is neither a call nor a field nor an operator. -/
theorem stops_spec {kind : TokenKind} (h : stops kind = true) : NoArguments kind ∧ kind ≠ .dot ∧
    (kind == .identifier || kind == .operator) = false := by
  refine ⟨⟨?_, ?_, ?_⟩, ?_, ?_⟩
  all_goals cases kind <;> first | decide | cases h

/-- Where an operand has ended, the loops over calls, fields and operators end. -/
theorem AccessReads.operand (h : AccessReads e) : OperandReads e := by
  intro fuel tail hfuel hstop
  obtain ⟨fuel, rfl⟩ := Nat.exists_eq_add_of_le' (show 1 ≤ fuel by omega)
  obtain ⟨hargs, hdot, hname⟩ := stops_spec hstop
  have haccess : Reads (access .strict fuel (operation .strict fuel)) e.shapes tail
      (·.strip = e.strip) := by
    rw [← List.append_nil e.shapes]
    refine h _ [] tail _ (by omega) hargs.2.1 hargs.2.2 (fun _ => hargs.1) ?_
    intro e' r₁ r₂ he' hr₁ hr₂
    refine (callTail_stop (show 0 < r₁ by omega) (show NoArguments (front ([] ++ tail)) from hargs)).mpr ?_
    exact (accessTail_stop (by omega) hdot).weaken fun _ ha => ha ▸ he'
  rw [operation]
  -- no operator follows, so the access is the whole operation
  refine .map haccess fun e' he' => ?_
  obtain ⟨fuel, rfl⟩ := Nat.exists_eq_add_of_le' (show 1 ≤ fuel by omega)
  rw [operationTail]
  refine .state fun s hs => ?_
  have hkind : s.atName = false := by
    rw [State.atName, State.kind_eq_front, hs]
    exact hname
  rw [hkind]
  exact .pure he'

/-- A primary is read, and the loops start behind it. -/
theorem AccessReads.of_primary (h : ∀ fuel tail, e.shapes.length < fuel →
    Reads (primary .strict fuel (operation .strict fuel)) e.shapes tail (·.strip = e.strip)) :
    AccessReads e := by
  intro fuel us tail Q hfuel _ _ _ hrest
  rw [access]
  exact .bind (h fuel (us ++ tail) hfuel) fun e' he' => hrest e' fuel fuel he' (by omega) (by omega)

/-- An operand that is an expression by itself. -/
theorem OperandReads.expression (h : OperandReads e) (he : e.Every Printable)
    (ha : e.isAssignment = false) : ExpressionReads e := by
  intro fuel tail hfuel hstop htail
  rw [Parser.expression]
  refine .state fun s hs => ?_
  rw [not_destructuring he ha htail hs]
  refine .map (h fuel tail hfuel hstop) fun e' he' => .state fun s hs => ?_
  have hkind : s.kind ≠ .assign := by
    rw [State.kind_eq_front, hs]
    exact htail
  rw [if_neg hkind]
  exact .pure he'

/-! ### Arguments

The arguments of a call, and the functions behind it. -/

section
variable {fuel rounds : Nat}

/-- An operand that is read as an argument. -/
def ArgumentFits (fuel : Nat) (arg : Argument Expr) : Prop :=
  OperandReads arg.value ∧ Opening false arg.value.shapes ∧ arg.value.shapes.length + 1 < fuel

/-- An argument is read as it was printed, with its name. -/
theorem argument_reads {arg : Argument Expr} (harg : ArgumentFits fuel arg)
    (htail : stops (front tail) = true) (hassign : front tail ≠ .assign) :
    Reads (argument (operation .strict fuel)) (argumentShapes arg) tail
      fun a => a.name = arg.name ∧ a.value.strip = arg.value.strip := by
  obtain ⟨hvalue, hopen, hfuel⟩ := harg
  obtain ⟨_ | name, e⟩ := arg
  · refine .state fun s hs => ?_
    rw [not_named hopen hassign hs]
    exact .map (hvalue fuel tail hfuel htail) fun e' he' => .pure ⟨rfl, he'⟩
  · refine .state fun s hs => ?_
    have hnamed : s.atNamedArgument = true := by
      obtain ⟨token, r, hrest, -, hr⟩ := List.map_eq_cons_iff.mp hs
      obtain ⟨equals, r, rfl, hequals, -⟩ := List.map_eq_cons_iff.mp hr
      have hkind : s.kind = (nameShape name).1 := State.kind_eq hs
      have hequals : equals.kind = .assign := congrArg Prod.fst hequals
      rw [State.atNamedArgument, State.atName, hkind, hrest]
      rcases nameShape_kind name with hname | hname <;> simp [hname, hequals]
    rw [hnamed, if_pos rfl]
    refine .next (nameShape_ne name (by decide) (by decide)) fun token htoken => ?_
    refine .next (by simp) fun _ _ => .map (hvalue fuel tail hfuel htail) fun e' he' => .pure ⟨?_, he'⟩
    exact congrArg some (congrArg Prod.snd htoken)

/-- Arguments have tokens, and do not start with the parenthesis that closes them. -/
theorem argumentShapes_front {arg : Argument Expr} (h : Opening false arg.value.shapes) :
    argumentShapes arg ≠ [] ∧ front (argumentShapes arg) ≠ .rightParen := by
  obtain ⟨_ | name, e⟩ := arg
  · exact ⟨h.ne_nil, h.front_ne _ (by decide)⟩
  · exact ⟨by simp [argumentShapes], nameShape_ne name (by decide) (by decide)⟩

theorem argumentList_reads {arg : Argument Expr} {args read : List (Argument Expr)}
    (hrounds : args.length < rounds) (h : ∀ a ∈ arg :: args, ArgumentFits fuel a)
    (htail : front tail = .rightParen) :
    Reads (argumentList (operation .strict fuel) rounds read)
      (separated ((arg :: args).map argumentShapes)) tail
        fun l => stripArgs l = stripArgs (read.reverse ++ arg :: args) := by
  induction rounds generalizing arg args read with
  | zero => exact absurd hrounds (Nat.not_lt_zero _)
  | succ rounds ih =>
    obtain ⟨harg, hargs⟩ := List.forall_mem_cons.mp h
    -- the names are kept, and the values are the same up to their places
    have hread : ∀ a : Argument Expr, a.name = arg.name ∧ a.value.strip = arg.value.strip →
        stripArgs ((a :: read).reverse ++ args) = stripArgs (read.reverse ++ arg :: args) := by
      rintro a ⟨hname, hvalue⟩
      simp [Expr.stripArgs_eq_map, hname, hvalue]
    rw [argumentList]
    -- behind the last argument there is no comma
    cases args with
    | nil =>
      refine .map (argument_reads harg (by rw [htail]; rfl) (by rw [htail]; decide)) fun a ha => ?_
      refine .decline ?_ (.state fun s hs => ?_)
      · rw [List.nil_append, htail]
        decide
      · refine .pure ?_
        rw [← hread a ha, List.append_nil]
    -- behind the others there is one, and it is not followed by the closing parenthesis
    | cons next args =>
      refine .bind (argument_reads harg rfl (by simp)) fun a ha => ?_
      refine .accept rfl (by decide) (.state fun s hs => ?_)
      obtain ⟨hne, hfront⟩ := argumentShapes_front (hargs next List.mem_cons_self).2.1
      have hkind : (s.kind != .rightParen) = true := by
        rw [State.kind_eq_front, hs, front_separated hne, bne_iff_ne]
        exact hfront
      simp only [hkind]
      refine (ih (Nat.lt_of_succ_lt_succ hrounds) hargs).weaken fun l hl => ?_
      rw [hl, hread a ha]

/-- Functions start with a brace or a bracket. -/
theorem front_function (he : e.isFunction = true) :
    e.shapes ≠ [] ∧ (front e.shapes = .leftBrace ∨ front e.shapes = .leftBracket) := by
  cases e with
  | function a decorators parameters body =>
    rcases decorators with _ | ⟨d, ds⟩
    · cases body <;> simp [shapes, Decorators.shapes]
    · cases body <;> simp [shapes, Decorators.shapes]
  | _ => cases he

theorem trailing_reads {fs read : List Expr} {stop : Span} (hrounds : fs.length < rounds)
    (hf : ∀ f ∈ fs, f.isFunction = true ∧ FunctionReads f ∧ f.shapes.length < fuel)
    (hbrace : front tail ≠ .leftBrace) (hbracket : front tail ≠ .leftBracket) :
    Reads (trailing .strict fuel (operation .strict fuel) rounds read stop) (trailingShapes fs) tail
      fun r => stripAll r.1 = stripAll (read.reverse ++ fs) := by
  induction rounds generalizing fs read stop with
  | zero => exact absurd hrounds (Nat.not_lt_zero _)
  | succ rounds ih =>
    rw [trailing]
    refine .state fun s hs => ?_
    -- no function starts with the token that follows them
    cases fs with
    | nil =>
      have hkind : s.startsFunction = false := by
        rw [State.startsFunction, State.kind_eq_front, hs]
        simp [trailingShapes, hbrace, hbracket]
      rw [hkind, List.append_nil]
      exact .pure rfl
    -- a function is read as it is, and the others are read behind it
    | cons f fs =>
      obtain ⟨⟨hfunction, hreads, hfuel⟩, hfs⟩ := List.forall_mem_cons.mp hf
      have hkind : s.startsFunction = true := by
        obtain ⟨hne, hfront⟩ := front_function hfunction
        rw [State.startsFunction, State.kind_eq_front, hs, trailingShapes, List.append_assoc,
          front_append hne]
        rcases hfront with hfront | hfront <;> rw [hfront] <;> rfl
      rw [hkind, if_pos rfl, trailingShapes]
      refine .bind (hreads fuel _ hfuel) fun f' hf' => ?_
      refine (ih (Nat.lt_of_succ_lt_succ hrounds) hfs).weaken fun r hr => ?_
      rw [hr]
      simp [Expr.stripAll_eq_map, hf']

/-- One of several functions has no more tokens than all of them. -/
theorem length_le_trailingShapes {fs : List Expr} {f : Expr} (hf : f ∈ fs) :
    f.shapes.length ≤ (trailingShapes fs).length := by
  induction fs with
  | nil => cases hf
  | cons g fs ih =>
    rw [trailingShapes, List.length_append]
    rcases List.mem_cons.mp hf with rfl | hf
    · omega
    · have hle := ih hf
      omega

theorem count_le_trailingShapes {fs : List Expr} (h : ∀ f ∈ fs, f.shapes ≠ []) :
    fs.length ≤ (trailingShapes fs).length := by
  induction fs with
  | nil => exact Nat.le_refl _
  | cons f fs ih =>
    obtain ⟨hf, hfs⟩ := List.forall_mem_cons.mp h
    have hpos := List.length_pos_iff.mpr hf
    have hle := ih hfs
    rw [trailingShapes, List.length_append, List.length_cons]
    omega

/-- Arguments in parentheses and the functions behind them. -/
theorem arguments_reads {args : List (Argument Expr)} {fs : List Expr}
    (hargs : ∀ arg ∈ args, OperandReads arg.value ∧ Opening false arg.value.shapes)
    (hf : ∀ f ∈ fs, f.isFunction = true ∧ FunctionReads f)
    (hfuel : (separated (argsShapes args)).length + (trailingShapes fs).length + 2 ≤ fuel)
    (hbrace : front tail ≠ .leftBrace) (hbracket : front tail ≠ .leftBracket) :
    Reads (arguments .strict fuel (operation .strict fuel))
      ((.leftParen, "(") :: separated (argsShapes args) ++ (.rightParen, ")") :: trailingShapes fs)
      tail fun a => stripArgs a.args = stripArgs args ∧ stripAll a.trailing = stripAll fs := by
  have hfs : ∀ f ∈ fs, f.isFunction = true ∧ FunctionReads f ∧ f.shapes.length < fuel := by
    intro f hmem
    have hle := length_le_trailingShapes hmem
    exact ⟨(hf f hmem).1, (hf f hmem).2, by omega⟩
  have hcount := count_le_trailingShapes fun f hmem => (front_function (hf f hmem).1).1
  -- the functions are read behind the parentheses, whatever was read in them
  have hrest : ∀ read, stripArgs read = stripArgs args → Reads (do
      let stop ← closer .strict .rightParen .unclosedArguments
      let r ← trailing .strict fuel (operation .strict fuel) fuel [] stop
      return (⟨read, r.1, r.2⟩ : Arguments)) ((.rightParen, ")") :: trailingShapes fs) tail
        fun a => stripArgs a.args = stripArgs args ∧ stripAll a.trailing = stripAll fs := by
    intro read hread
    refine .closer rfl (by decide) fun stop => ?_
    refine .map (trailing_reads (by omega) hfs hbrace hbracket) fun r hr => ?_
    exact .pure ⟨hread, hr⟩
  rw [arguments]
  refine .state fun s hs => ?_
  have hkind : s.kind = .leftParen := State.kind_eq hs
  rw [if_pos hkind]
  refine .next (by simp) fun _ _ => .state fun s hs => ?_
  cases args with
  | nil =>
    have hkind : s.kind = .rightParen := State.kind_eq hs
    rw [if_pos hkind]
    exact hrest [] rfl
  | cons arg args =>
    rw [Expr.argsShapes_eq_map] at hfuel hs ⊢
    have hopen : ∀ a ∈ arg :: args, argumentShapes a ≠ [] ∧ front (argumentShapes a) ≠ .rightParen :=
      fun a hmem => argumentShapes_front (hargs a hmem).2
    have hitems := count_le_separated (List.forall_mem_map.mpr fun a hmem => (hopen a hmem).1)
    have hfits : ∀ a ∈ arg :: args, ArgumentFits fuel a := by
      intro a hmem
      have hle := length_le_separated (List.mem_map_of_mem (f := argumentShapes) hmem)
      have hvalue : a.value.shapes.length ≤ (argumentShapes a).length := by
        rw [argumentShapes, List.length_append]
        omega
      exact ⟨(hargs a hmem).1, (hargs a hmem).2, by omega⟩
    have hkind : s.kind ≠ .rightParen := by
      obtain ⟨hne, hfront⟩ := hopen arg List.mem_cons_self
      rw [State.kind_eq_front, hs.trans (List.append_assoc _ _ _), List.map_cons, front_separated hne]
      exact hfront
    rw [List.length_map, List.length_cons] at hitems
    rw [if_neg hkind]
    exact .bind (argumentList_reads (by omega) hfits rfl) fun read hread => hrest read hread

end

end Parser

end Protean
