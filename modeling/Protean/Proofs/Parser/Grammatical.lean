import Protean.Parser.Program
import Protean.Proofs.Expr.Shape

/-!
# Proofs — Parser — what a strict reader gives

A strict reader never stands anything in for what is missing, so every node it builds is one of the
grammar.  `Parser.Yields Q p` says that what `p` reads from sound tokens satisfies `Q`; it goes through
all readers, from the innermost to whole programs.

**Strict readers give grammatical trees** (`grammatical_of_parse`).

* `Token.Sound`, `State.Sound`: tokens with the texts that the lexer gives their kinds, and states with such tokens.
* `Tree`, `Operand`, `Callable`: what may stand where an expression, an operand or the target of a call is asked for.
* `Parser.Yields`: the relation, with a rule for every combinator of readers.
* `assignment_yields` … `program_yields`: the readers of the language, one lemma for each.
-/

namespace Protean

namespace Parser

variable {α β : Type}

/-! ### Rules

A rule for every combinator of readers. -/

/-- The names and operators among the tokens that are left are sound. -/
def State.Sound (s : State) : Prop := ∀ t ∈ s.rest, t.Sound

/-- What a reader that has read `Q` replies, leaving sound tokens. -/
def Reply.Sound (Q : α → Prop) : Reply α → Prop
  | .done a s => Q a ∧ s.Sound
  | .failed _ s => s.Sound
  | .starved => True

/-- What `p` reads from sound tokens satisfies `Q`. -/
def Yields (Q : α → Prop) (p : Parser α) : Prop := ∀ s : State, s.Sound → (p s).Sound Q

namespace State.Sound

variable {s : State}

theorem advance (hs : s.Sound) : s.advance.Sound := by
  rw [State.advance]
  split
  · exact hs
  · rename_i t r hrest
    split
    · exact hs
    · exact fun t' ht' => hs t' (hrest ▸ List.mem_cons_of_mem t ht')

theorem advanceBy (hs : s.Sound) (n : Nat) : (s.advanceBy n).Sound := by
  induction n generalizing s with
  | zero => exact hs
  | succ n ih => exact ih hs.advance

/-- The next token is sound, and so is the end of the text that stands in when there is none. -/
theorem peek (hs : s.Sound) : s.peek.Sound := by
  rw [State.peek]
  cases hrest : s.rest with
  | nil => exact ⟨nofun, nofun⟩
  | cons t r => exact hs t (hrest ▸ List.mem_cons_self)

theorem skipSeparatorsIn (hs : s.Sound) (tokens : List Token) : (s.skipSeparatorsIn tokens).Sound := by
  induction tokens generalizing s with
  | nil => exact hs
  | cons t r ih =>
    rw [State.skipSeparatorsIn]
    split
    · exact ih hs.advance
    · exact ih hs.advance
    · exact hs

theorem synchronizeIn (hs : s.Sound) (depth : Nat) (tokens : List Token) :
    (s.synchronizeIn depth tokens).Sound := by
  induction tokens generalizing s depth with
  | nil => exact hs
  | cons t r ih =>
    rw [State.synchronizeIn]
    split
    · exact hs
    all_goals first
      | exact ih hs.advance _
      | split
        · exact hs
        · exact ih hs.advance _

end State.Sound

namespace Yields

variable {Q : α → Prop} {R : β → Prop}

theorem pure {a : α} (ha : Q a) : Yields Q (Parser.pure a) := fun _ hs => ⟨ha, hs⟩

/-- The second reader may rely on what the first one yields. -/
theorem bind {p : Parser α} {f : α → Parser β} (hp : Yields Q p) (hf : ∀ a, Q a → Yields R (f a)) :
    Yields R (p >>= f) := by
  intro s hs
  have hps := hp s hs
  show (Parser.bind p f s).Sound R
  rw [Parser.bind]
  cases hreply : p s with
  | done a s' =>
    rw [hreply] at hps
    exact hf a hps.1 s' hps.2
  | failed e s' =>
    rw [hreply] at hps
    exact hps
  | starved => trivial

/-- What is yielded may be known to be more than is asked for. -/
theorem weaken {Q' : α → Prop} {p : Parser α} (hp : Yields Q p) (hq : ∀ a, Q a → Q' a) :
    Yields Q' p := by
  intro s hs
  have hps := hp s hs
  cases hreply : p s with
  | done a s' =>
    rw [hreply] at hps
    exact ⟨hq a hps.1, hps.2⟩
  | failed e s' => rwa [hreply] at hps
  | starved => trivial

theorem state : Yields State.Sound Parser.state := fun _ hs => ⟨hs, hs⟩

theorem next : Yields Token.Sound Parser.next := fun _ hs => ⟨hs.peek, hs.advance⟩

/-- A reader that goes by the state it starts from. -/
theorem look {c : State → Prop} [DecidablePred c] {p q : State → Parser β}
    (hp : ∀ s, s.Sound → c s → (p s s).Sound R) (hq : ∀ s, s.Sound → ¬ c s → (q s s).Sound R) :
    Yields R (Parser.state >>= fun s => if c s then p s else q s) := by
  intro s hs
  show ((if c s then p s else q s) s).Sound R
  by_cases hc : c s
  · rw [if_pos hc]
    exact hp s hs hc
  · rw [if_neg hc]
    exact hq s hs hc

/-- A reader that passes the token it has looked at. -/
theorem take {s : State} (hs : s.Sound) {f : Token → Parser β} (hf : Yields R (f s.peek)) :
    ((Parser.next >>= f) s).Sound R := hf s.advance hs.advance

theorem pass (n : Nat) : Yields (fun _ => True) (Parser.pass n) :=
  fun _ hs => ⟨trivial, hs.advanceBy n⟩

theorem starve : Yields Q Parser.starve := fun _ _ => trivial

theorem fail (e : GrammarError) : Yields Q (Parser.fail e) := fun _ hs => hs

theorem failHere (cause : GrammarCause) : Yields Q (Parser.failHere cause) := fun _ hs => hs

/-- A strict reader stands nothing in, so it yields nothing where something is missing. -/
theorem recover (e : GrammarError) (standIn : α) : Yields Q (Parser.recover .strict e standIn) :=
  fun _ hs => hs

/-- What is expected is yielded as a sound token of that kind. -/
theorem expect (kind : TokenKind) (cause : GrammarCause) :
    Yields (fun t => t.Sound ∧ t.kind = kind) (Parser.expect kind cause) := by
  intro s hs
  rw [Parser.expect]
  split
  · rename_i hkind
    exact ⟨⟨hs.peek, hkind⟩, hs.advance⟩
  · exact hs

theorem accept (kind : TokenKind) : Yields (fun _ => True) (Parser.accept kind) := by
  intro s hs
  rw [Parser.accept]
  split
  · exact ⟨trivial, hs.advance⟩
  · exact ⟨trivial, hs⟩

/-- A closing delimiter, whose span only is kept. -/
theorem closer (kind : TokenKind) (cause : GrammarCause) :
    Yields (fun _ => True) (Parser.closer .strict kind cause) := by
  intro s hs
  rw [Parser.closer]
  split
  · exact ⟨trivial, hs.advance⟩
  · exact hs

end Yields

/-! ### Trees of the grammar

Expressions, assignments and bodies. -/

/-- All nodes are of the grammar. -/
abbrev Tree (e : Expr) : Prop := e.Every Expr.Grammatical

/-- A tree that is no assignment. -/
abbrev Operand (e : Expr) : Prop := Tree e ∧ e.isAssignment = false

/-- An operand that can be called.  A field cannot: calling it is sending it to its object. -/
abbrev Callable (e : Expr) : Prop := Operand e ∧ e.isField = false

section
variable {fuel : Nat} {operand : Parser Expr}

/-- The names of a destructuring assignment are names of the language, and there are some. -/
theorem destructuredNames_spec : ∀ {tokens : List Token} {names : List String},
    (∀ t ∈ tokens, t.Sound) → destructuredNames tokens = some names →
      names ≠ [] ∧ ∀ name ∈ names, Token.IsIdentifier name
  | name :: mark :: r, names, hs, hnames => by
      rw [destructuredNames] at hnames
      split at hnames
      · rename_i hkind
        have hname := (hs name List.mem_cons_self).1 hkind
        split at hnames
        · obtain ⟨rest, hrest, rfl⟩ := Option.map_eq_some_iff.mp hnames
          obtain ⟨-, hall⟩ := destructuredNames_spec
            (fun t ht => hs t (List.mem_cons_of_mem _ (List.mem_cons_of_mem _ ht))) hrest
          exact ⟨List.cons_ne_nil _ _, List.forall_mem_cons.mpr ⟨hname, hall⟩⟩
        · split at hnames <;> cases hnames
          exact ⟨List.cons_ne_nil _ _, List.forall_mem_singleton.mpr hname⟩
        · cases hnames
      · cases hnames
  | [], _, _, hnames => by cases hnames
  | [_], _, _, hnames => by cases hnames

/-- A strict reader assigns to names and fields only. -/
theorem assignment_yields {lhs value : Expr} (hl : Operand lhs) (hv : Operand value)
    (equals : Span) : Yields Tree (assignment .strict lhs value equals) := by
  unfold assignment
  split
  · exact .pure (.bind ⟨hl.1.node, hv.2⟩ hv.1)
  · cases hl.1 with
    | field h htarget => exact .pure (.store ⟨h.1, h.2, hv.2⟩ htarget hv.1)
  · exact .recover _ _

/-- Expressions, if operands are read as they should. -/
theorem expression_yields (ho : Yields Operand operand) :
    Yields Tree (expression .strict operand) := by
  refine Yields.state.bind fun s hs => ?_
  split
  · rename_i names hnames
    have hspec : names ≠ [] ∧ ∀ name ∈ names, Token.IsIdentifier name := by
      rw [State.destructuring?] at hnames
      split at hnames
      · exact destructuredNames_spec (fun t ht => hs t (List.mem_of_mem_tail ht)) hnames
      · cases hnames
    exact Yields.next.bind fun _ _ => (Yields.pass _).bind fun _ _ => Yields.next.bind fun _ _ =>
      ho.bind fun value hv => .pure (.destructure ⟨hspec.1, hspec.2, hv.2⟩ hv.1)
  · refine ho.bind fun lhs hl => Yields.state.bind fun s' _ => ?_
    split
    · exact Yields.next.bind fun _ _ => ho.bind fun value hv => assignment_yields hl hv _
    · exact .pure hl.1

/-- Broken statements are passed over, so a block has only statements that were read. -/
theorem block_yields {statement : Parser Expr} (hst : Yields Tree statement) (closer : TokenKind) :
    ∀ (fuel : Nat) {read : List Expr}, (∀ e ∈ read, Tree e) →
      Yields (fun es => ∀ e ∈ es, Tree e) (block closer statement fuel read)
  | 0, _, _ => .starve
  | fuel + 1, read, hread => by
      intro s hs
      have hnext : ∀ before after : State, after.Sound →
          (nextStatement closer before after).Sound := by
        intro before after hafter
        rw [nextStatement]
        split
        · exact hafter.advance
        · exact hafter
      have hsettle : ∀ s : State, s.Sound → (settle closer s).Sound := by
        intro s hs
        rw [settle]
        split
        · exact hs
        · exact State.Sound.synchronizeIn (s := s.note _) hs 0 s.rest
      have hskip : s.skipSeparators.Sound := hs.skipSeparatorsIn s.rest
      have hreply := hst s.skipSeparators hskip
      rw [block]
      simp only
      split
      · exact ⟨fun e he => hread e (List.mem_reverse.mp he), hskip⟩
      · split <;> rename_i heq <;> rw [heq] at hreply
        · exact block_yields hst closer fuel (List.forall_mem_cons.mpr ⟨hreply.1, hread⟩) _
            (hnext _ _ (hsettle _ hreply.2))
        · rename_i e s'
          exact block_yields hst closer fuel hread _
            (hnext _ _ (State.Sound.synchronizeIn (s := s'.note e) hreply 0 s'.rest))
        · trivial

/-! ### Functions

Functions with their decorators. -/

/-- The text of a decorator may be any text. -/
theorem plainText_yields : ∀ (fuel : Nat) (text : String),
    Yields (fun _ => True) (plainText fuel text)
  | 0, _ => .starve
  | fuel + 1, text => by
      refine Yields.state.bind fun s _ => ?_
      split
      · exact Yields.next.bind fun content _ => plainText_yields fuel _
      · split
        · exact .failHere _
        · exact (Yields.expect _ _).bind fun _ _ => .pure trivial

/-- To mark something again leaves the other marks as they are. -/
theorem mem_put {d : String × Option String} {name : String} {text : Option String} :
    ∀ {ds : Decorators}, d ∈ ds.put name text → d ∈ ds ∨ d.1 = name
  | [], hd => .inr (congrArg Prod.fst (List.mem_singleton.mp hd))
  | (other, old) :: rest, hd => by
      rw [Decorators.put] at hd
      split at hd
      · rename_i heq
        rcases List.mem_cons.mp hd with rfl | hd
        · exact .inr heq
        · exact .inl (List.mem_cons_of_mem _ hd)
      · rcases List.mem_cons.mp hd with rfl | hd
        · exact .inl List.mem_cons_self
        · exact (mem_put hd).imp_left (List.mem_cons_of_mem _)

/-- One more mark under a name of the language. -/
theorem put_writable {ds : Decorators} {name : String} (hds : ds.Writable)
    (hname : Token.IsIdentifier name) (text : Option String) : (ds.put name text).Writable := by
  refine ⟨fun d hd => ?_, ?_⟩
  · rcases mem_put hd with hd | hd
    · exact hds.1 d hd
    · exact hd ▸ hname
  · have hnodup := hds.2
    clear hds
    induction ds with
    | nil => exact List.nodup_cons.mpr ⟨nofun, List.nodup_nil⟩
    | cons d rest ih =>
      obtain ⟨hd, hrest⟩ := List.nodup_cons.mp hnodup
      rw [Decorators.put.eq_def]
      simp only
      split
      · exact hnodup
      · rename_i hne
        refine List.nodup_cons.mpr ⟨fun hmem => ?_, ih hrest⟩
        obtain ⟨d', hd', heq⟩ := List.mem_map.mp hmem
        rcases mem_put hd' with hd' | hd'
        · exact hd (List.mem_map.mpr ⟨d', hd', heq⟩)
        · exact hne (heq ▸ hd')

theorem decoratorList_yields (fuel : Nat) : ∀ (rounds : Nat) {read : Decorators}, read.Writable →
    Yields Decorators.Writable (decoratorList fuel rounds read)
  | 0, _, _ => .starve
  | rounds + 1, read, hread => by
      refine (Yields.expect _ _).bind fun name hname => (Yields.accept _).bind fun valued _ => ?_
      have hrest : ∀ text, Yields Decorators.Writable (do
          let more ← accept .comma
          if more then decoratorList fuel rounds (read.put name.lexeme text)
          else Parser.pure (read.put name.lexeme text)) := by
        intro text
        have hput := put_writable hread (hname.1.1 hname.2) text
        refine (Yields.accept _).bind fun more _ => ?_
        split
        · exact decoratorList_yields fuel rounds hput
        · exact .pure hput
      dsimp only
      split
      · exact (Yields.expect _ _).bind fun _ _ => (plainText_yields fuel "").bind fun text _ =>
          (Yields.pure (Q := fun _ => True) trivial).bind fun text _ => hrest text
      · exact (Yields.pure (Q := fun _ => True) trivial).bind fun text _ => hrest text

theorem decorators_yields (fuel : Nat) : Yields Decorators.Writable (decorators .strict fuel) := by
  have hnone : Decorators.Writable [] := ⟨nofun, List.nodup_nil⟩
  refine (Yields.accept _).bind fun present _ => ?_
  split
  · refine Yields.state.bind fun s _ => ?_
    have hclose : ∀ read, Decorators.Writable read → Yields Decorators.Writable (do
        let _ ← closer .strict .rightBracket .unclosedDecorators
        Parser.pure read) :=
      fun read hread => (Yields.closer _ _).bind fun _ _ => .pure hread
    dsimp only
    split
    · exact (Yields.pure hnone).bind hclose
    · exact (decoratorList_yields fuel fuel hnone).bind hclose
  · exact .pure hnone

theorem function_yields (ho : Yields Operand operand) :
    Yields (fun e => Tree e ∧ e.isFunction = true) (function .strict fuel operand) :=
  Yields.state.bind fun _ _ => (decorators_yields fuel).bind fun _ hmarks =>
    (Yields.expect _ _).bind fun _ _ =>
      (block_yields (expression_yields ho) _ fuel (List.forall_mem_nil _)).bind fun _ hbody =>
        (Yields.closer _ _).bind fun _ _ => .pure ⟨.function ⟨hmarks, rfl⟩ hbody, rfl⟩

/-! ### Strings

Strings, which with interpolations are chains of calls. -/

/-- The parts of a string joined by calls of the operator `+`. -/
theorem joinParts_callable (span : Span) {first : Expr} {parts : List Expr} (hf : Callable first)
    (hp : ∀ e ∈ parts, Tree e) : Callable (joinParts span first parts) := by
  have hplus : Token.IsName "+" :=
    .inr ⟨'+', [], rfl, List.forall_mem_singleton.mpr rfl, by decide, by decide⟩
  rw [joinParts]
  induction parts generalizing first with
  | nil => exact hf
  | cons part parts ih =>
    obtain ⟨hpart, hparts⟩ := List.forall_mem_cons.mp hp
    refine ih ⟨⟨?_, rfl⟩, rfl⟩ hparts
    refine .call ⟨rfl, rfl, ?_, nofun⟩ (.identifier hplus) ?_ nofun
    · simp
    · simpa using ⟨hf.1.1, hpart⟩

/-- All parts read so far are trees. -/
def Pieces.Sound (p : Pieces) : Prop := ∀ e ∈ p.parts, Tree e

/-- A text can be called, as far as the grammar goes. -/
theorem textPart_callable (p : Pieces) (offset : Nat) : Callable (p.textPart offset) :=
  ⟨⟨.literal trivial, rfl⟩, rfl⟩

/-- The first part of a string is its text up to the first interpolation. -/
theorem stringParts_yields (ho : Yields Operand operand) : ∀ (fuel : Nat) {p : Pieces}, p.Sound →
    (∀ e, p.parts.getLast? = some e → Callable e) →
      Yields (fun r => r.1.Sound ∧ ∀ e, r.1.parts.getLast? = some e → Callable e)
        (stringParts .strict operand fuel p)
  | 0, _, _, _ => .starve
  | fuel + 1, p, hp, hlast => by
      refine Yields.state.bind fun s _ => ?_
      split
      · exact Yields.next.bind fun content _ => stringParts_yields ho fuel hp hlast
      · refine Yields.next.bind fun mark _ => (expression_yields ho).bind fun e he =>
          (Yields.closer _ _).bind fun _ _ => stringParts_yields ho fuel ?_ ?_
        · have htext := (textPart_callable p mark.span.start).1.1
          exact List.forall_mem_cons.mpr ⟨he, List.forall_mem_cons.mpr ⟨htext, hp⟩⟩
        · intro e' he'
          rw [Pieces.addPart, List.getLast?_cons_cons] at he'
          rcases hparts : p.parts with _ | ⟨part, parts⟩
          · rw [hparts] at he'
            cases he'
            exact textPart_callable p _
          · rw [hparts, List.getLast?_cons_cons, ← hparts] at he'
            exact hlast e' he'
      · exact Yields.next.bind fun _ _ => .pure ⟨hp, hlast⟩
      · exact .recover _ _

/-- A string with interpolations is a chain of calls. -/
theorem build_callable {p : Pieces} (hp : p.Sound)
    (hlast : ∀ e, p.parts.getLast? = some e → Callable e) (span stop : Span) :
    Callable (p.build span stop) := by
  unfold Pieces.build
  split
  · exact ⟨⟨.literal trivial, rfl⟩, rfl⟩
  · rename_i hne
    dsimp only
    generalize hall : (if p.text.isEmpty then p.parts else p.textPart stop.start :: p.parts) = parts
    have hparts : (∀ e ∈ parts, Tree e) ∧ parts.getLast? = p.parts.getLast? := by
      subst hall
      split
      · exact ⟨hp, rfl⟩
      · refine ⟨List.forall_mem_cons.mpr ⟨(textPart_callable p _).1.1, hp⟩, ?_⟩
        rcases hcases : p.parts with _ | ⟨part, rest⟩
        · exact absurd hcases hne
        · exact List.getLast?_cons_cons ..
    split
    · rename_i first others hrev
      have hfirst : parts.getLast? = some first := by
        rw [← List.reverse_reverse parts, List.getLast?_reverse, hrev, List.head?_cons]
      refine joinParts_callable span (hlast first (hparts.2 ▸ hfirst)) fun e he => hparts.1 e ?_
      exact List.mem_reverse.mp (hrev ▸ List.mem_cons_of_mem _ he)
    · exact ⟨⟨.literal trivial, rfl⟩, rfl⟩

theorem string_yields (ho : Yields Operand operand) :
    Yields Callable (string .strict fuel operand) :=
  Yields.next.bind fun _ _ => (stringParts_yields ho fuel (p := ⟨[], "", none⟩) nofun nofun).bind
    fun _ hr => .pure (build_callable hr.1 hr.2 _ _)

/-! ### Primaries, calls and fields

What may be called, and what may be an operand. -/

theorem primary_yields (ho : Yields Operand operand) :
    Yields Callable (primary .strict fuel operand) := by
  refine Yields.state.bind fun s hs => ?_
  dsimp only
  split
  -- names and operators are made of characters of the language, as the lexer has found them
  · rename_i hkind
    exact Yields.next.bind fun _ _ => .pure ⟨⟨.identifier (.inl (hs.peek.1 hkind)), rfl⟩, rfl⟩
  · rename_i hkind
    exact Yields.next.bind fun _ _ => .pure ⟨⟨.identifier (.inr (hs.peek.2 hkind)), rfl⟩, rfl⟩
  · refine Yields.next.bind fun _ _ => ?_
    split
    · exact .pure ⟨⟨.literal trivial, rfl⟩, rfl⟩
    · exact .fail _
  · exact string_yields ho
  · exact (function_yields ho).weaken fun e he => by
      cases e with
      | function => exact ⟨⟨he.1, rfl⟩, rfl⟩
      | _ => cases he.2
  · exact (function_yields ho).weaken fun e he => by
      cases e with
      | function => exact ⟨⟨he.1, rfl⟩, rfl⟩
      | _ => cases he.2
  · exact Yields.next.bind fun _ _ => (expression_yields ho).bind fun inner hinner =>
      (Yields.closer _ _).bind fun _ _ => .pure ⟨⟨.bracket trivial hinner, rfl⟩, rfl⟩
  -- where a primary is missing a strict reader fails
  · exact .recover _ _

/-- An argument, and the name it is given under. -/
theorem argument_yields (ho : Yields Operand operand) :
    Yields (fun arg => Tree arg.value ∧ ∀ name, arg.name = some name → Token.IsName name)
      (argument operand) := by
  refine Yields.look (c := fun s => s.atNamedArgument) (fun s hs hnamed => ?_) fun s hs _ => ?_
  · have hname : Token.IsName s.peek.lexeme := by
      simp only [State.atNamedArgument, State.atName, State.kind, Bool.and_eq_true,
        Bool.or_eq_true, beq_iff_eq] at hnamed
      exact hnamed.1.imp hs.peek.1 hs.peek.2
    refine Yields.take hs (Yields.next.bind fun _ _ => ho.bind fun value hv => .pure ⟨hv.1, ?_⟩)
    rintro _ ⟨⟩
    exact hname
  · exact ho.bind (fun value hv => .pure ⟨hv.1, nofun⟩) s hs

/-- Trees as arguments of a call. -/
abbrev ArgumentTrees (args : List (Argument Expr)) : Prop :=
  ∀ arg ∈ args, Tree arg.value ∧ ∀ name, arg.name = some name → Token.IsName name

theorem argumentList_yields (ho : Yields Operand operand) :
    ∀ (fuel : Nat) {read : List (Argument Expr)}, ArgumentTrees read →
      Yields ArgumentTrees (argumentList operand fuel read)
  | 0, _, _ => .starve
  | fuel + 1, read, hread => by
      refine (argument_yields ho).bind fun arg harg => (Yields.accept _).bind fun more _ =>
        Yields.state.bind fun s _ => ?_
      have hall : ArgumentTrees (arg :: read) := List.forall_mem_cons.mpr ⟨harg, hread⟩
      split
      · exact argumentList_yields ho fuel hall
      · exact .pure fun a ha => hall a (List.mem_reverse.mp ha)

/-- Functions behind a call. -/
abbrev TrailingTrees (fs : List Expr) : Prop := ∀ f ∈ fs, Tree f ∧ f.isFunction = true

theorem trailing_yields (ho : Yields Operand operand) :
    ∀ (rounds : Nat) {read : List Expr} (stop : Span), TrailingTrees read →
      Yields (fun r => TrailingTrees r.1) (trailing .strict fuel operand rounds read stop)
  | 0, _, _, _ => .starve
  | rounds + 1, read, stop, hread => by
      refine Yields.state.bind fun s _ => ?_
      split
      · exact (function_yields ho).bind fun f hf =>
          trailing_yields ho rounds _ (List.forall_mem_cons.mpr ⟨hf, hread⟩)
      · exact .pure fun f hf => hread f (List.mem_reverse.mp hf)

theorem arguments_yields (ho : Yields Operand operand) :
    Yields (fun a : Arguments => ArgumentTrees a.args ∧ TrailingTrees a.trailing)
      (arguments .strict fuel operand) := by
  refine Yields.state.bind fun s _ => ?_
  split
  · refine Yields.next.bind fun _ _ => Yields.state.bind fun s' _ => ?_
    have hrest : ∀ args, ArgumentTrees args →
        Yields (fun a : Arguments => ArgumentTrees a.args ∧ TrailingTrees a.trailing) (do
          let stop ← closer .strict .rightParen .unclosedArguments
          let r ← trailing .strict fuel operand fuel [] stop
          Parser.pure ⟨args, r.1, r.2⟩) :=
      fun args hargs => (Yields.closer _ _).bind fun stop _ =>
        (trailing_yields ho fuel stop (List.forall_mem_nil _)).bind fun r hr => .pure ⟨hargs, hr⟩
    dsimp only
    split
    · exact (Yields.pure (Q := ArgumentTrees) (List.forall_mem_nil _)).bind hrest
    · exact (argumentList_yields ho fuel (List.forall_mem_nil _)).bind hrest
  · exact (trailing_yields ho fuel _ (List.forall_mem_nil _)).bind fun r hr =>
      .pure ⟨List.forall_mem_nil _, hr⟩

/-- What the arguments of a call make of its parts. -/
theorem ArgumentTrees.tail {args : List (Argument Expr)} {fs : List Expr} (ha : ArgumentTrees args)
    (hf : TrailingTrees fs) : Expr.TailWritable args fs :=
  ⟨fun arg harg => (ha arg harg).2, fun f hmem => (hf f hmem).2⟩

theorem callTail_yields (ho : Yields Operand operand) : ∀ (rounds : Nat) {e : Expr}, Callable e →
    Yields Callable (callTail .strict fuel operand rounds e)
  | 0, _, _ => .starve
  | rounds + 1, e, he => by
      refine Yields.state.bind fun s _ => ?_
      split
      · refine (arguments_yields ho).bind fun a ha => callTail_yields ho rounds ⟨⟨?_, rfl⟩, rfl⟩
        exact .call ⟨he.1.2, he.2, ha.1.tail ha.2⟩ he.1.1 (fun arg harg => (ha.1 arg harg).1)
          fun f hf => (ha.2 f hf).1
      · exact .pure he

/-- What is read as an index is in the range of indices. -/
theorem readIndex?_lt {text : String} {n : Nat} (hn : Number.readIndex? text = some n) :
    n < Number.indexLimit := by
  rw [Number.readIndex?] at hn
  split at hn
  · rename_i h
    cases hn
    exact h.2.2
  · cases hn

/-- The key of a field can be written, as it was read. -/
theorem fieldKey_yields (dot : Span) : Yields (fun r => r.1.Writable) (fieldKey .strict dot) := by
  refine Yields.state.bind fun s hs => ?_
  dsimp only
  split
  · rename_i hkind
    exact Yields.next.bind fun _ _ => .pure (.inl (hs.peek.1 hkind))
  · rename_i hkind
    exact Yields.next.bind fun _ _ => .pure (.inr (hs.peek.2 hkind))
  · refine Yields.next.bind fun _ _ => ?_
    split
    · rename_i n hn
      exact .pure (readIndex?_lt hn)
    · exact .fail _
  · exact .recover _ _

theorem accessTail_yields (ho : Yields Operand operand) : ∀ (rounds : Nat) {e : Expr}, Operand e →
    Yields Operand (accessTail .strict fuel operand rounds e)
  | 0, _, _ => .starve
  | rounds + 1, e, he => by
      refine Yields.state.bind fun s _ => ?_
      split
      · refine Yields.next.bind fun dot _ => (fieldKey_yields _).bind fun r hr =>
          Yields.state.bind fun s' _ => ?_
        dsimp only
        split
        · refine (arguments_yields ho).bind fun a ha => ?_
          have hsent : ∀ anchor, Callable (.send anchor e r.1 (some r.2) a.args a.trailing) :=
            fun _ => ⟨⟨.send ⟨he.2, hr, ha.1.tail ha.2⟩ he.1 (fun arg harg => (ha.1 arg harg).1)
              fun f hf => (ha.2 f hf).1, rfl⟩, rfl⟩
          exact (callTail_yields ho fuel (hsent _)).bind fun called hcalled =>
            accessTail_yields ho rounds hcalled.1
        · exact accessTail_yields ho rounds ⟨.field ⟨he.2, hr⟩ he.1, rfl⟩
      · exact .pure he

theorem access_yields (ho : Yields Operand operand) :
    Yields Operand (access .strict fuel operand) :=
  (primary_yields ho).bind fun _ he => (callTail_yields ho fuel he).bind fun _ hcalled =>
    accessTail_yields ho fuel hcalled.1

/-! ### Operations and programs

The induction on the fuel, and what follows for texts. -/

theorem operationTail_yields (ho : Yields Operand operand) : ∀ (rounds : Nat) {lhs : Expr},
    Operand lhs → Yields Operand (operationTail operand rounds lhs)
  | 0, _, _ => .starve
  | rounds + 1, lhs, hl => by
      refine Yields.look (c := fun s => s.atName) (fun s hs hname => ?_) fun s hs _ => ?_
      · have hop : Token.IsName s.peek.lexeme := by
          simp only [State.atName, State.kind, Bool.or_eq_true, beq_iff_eq] at hname
          exact hname.imp hs.peek.1 hs.peek.2
        refine Yields.take hs (ho.bind fun rhs hr => operationTail_yields ho rounds ⟨?_, rfl⟩)
        refine .call ⟨rfl, rfl, by simp, nofun⟩ (.identifier hop) ?_ nofun
        simpa using ⟨hl.1, hr.1⟩
      · exact Yields.pure hl s hs

end

theorem operation_yields : ∀ fuel : Nat, Yields Operand (operation .strict fuel)
  | 0 => .starve
  | fuel + 1 =>
      have haccess := access_yields (operation_yields fuel)
      haccess.bind fun _ hfirst => operationTail_yields haccess fuel hfirst

theorem program_yields (fuel : Nat) :
    Yields (fun es => ∀ e ∈ es, Tree e) (program .strict fuel) :=
  block_yields (expression_yields (operation_yields fuel)) .eof fuel (List.forall_mem_nil _)

end Parser

/-- **Strict readers give grammatical trees.** -/
theorem grammatical_of_parse {text : String} {exprs : List Expr}
    (h : (Expr.parse .strict text).exprs = some exprs) : ∀ e ∈ exprs, e.Every Expr.Grammatical := by
  have hsound : (Parser.State.start (Token.ofText text).tokens).Sound := Token.ofText_sound text
  have hyields := Parser.program_yields ((Token.ofText text).tokens.length + 2) _ hsound
  rw [Expr.parse] at h
  simp only at h
  split at h <;> rename_i heq <;> rw [heq] at hyields
  · split at h <;> cases h
    exact hyields.1
  · cases h
  · cases h

end Protean
