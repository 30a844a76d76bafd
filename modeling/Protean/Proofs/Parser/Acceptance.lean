import Protean.Proofs.Parser.Lockstep
import Protean.Proofs.Token.Numeral

/-!
# Proofs — Parser — strict readers accept the grammar

`Parser.Accepts p ts tail Q` says that `p`, where the tokens `ts` are followed by `tail`, reads just `ts`
without complaint and gives something of which `Q` holds, unless it starves.  A phrase of the grammar is
accepted by its reader in front of a token that does not go on with the phrase.  Trailing functions can
be shared out among calls in several ways, of which a reader picks one, so the tree of the phrase is not
always the one that is read; all that matters here of the tree is whether something can be assigned to
it.

**A strict reader accepts just the grammar**: `strict_reader_accepts_grammar`.

* `Parser.Accepts`: the relation, with a rule for every combinator of readers.
* `Parser.AcceptsOperations`, `Parser.AcceptsStatements`: what the readers inside of a reader are asked for.
* `expression_accepts` … `operation_accepts`: the phrases of the grammar, from the outside in and back, one lemma for
  each, in front of tokens that do not go on with the phrase.
* `Items`: functions and calls behind an operand, in whatever way these are shared out.
* `program_accepts`: whole programs.
-/

namespace Protean

namespace Parser

open Grammar

variable {α β : Type} {ts us tail : List Token} {t : Token}

/-- The next token of a reader is the first one of those that are left. -/
theorem State.kind_eq_headKind (s : State) : s.kind = headKind s.rest := by
  rw [kind, peek, headKind]
  cases s.rest <;> rfl

/-! ### Rules

A rule for every combinator of readers. -/

/-- Unless it starves, `p` reads the tokens `ts` in front of `tail` without complaint, and what it gives
satisfies `Q`. -/
def Accepts (p : Parser α) (ts tail : List Token) (Q : α → Prop) : Prop :=
  ∀ s : State, s.rest = ts ++ tail → (∀ t ∈ s.rest, t.Legible) →
    p s = .starved ∨ ∃ a s', p s = .done a s' ∧ s.Passes ts s' ∧ Q a

namespace Accepts

variable {P : α → Prop} {Q : β → Prop} {p : Parser α} {f : α → Parser β} {kind : TokenKind}

/-- A reader without fuel is not asked for anything. -/
theorem starve : Accepts Parser.starve ts tail P := fun _ _ _ => .inl rfl

/-- A reader that reads nothing accepts no tokens. -/
theorem pure {a : α} (ha : P a) : Accepts (Parser.pure a) [] tail P :=
  fun s _ _ => .inr ⟨a, s, rfl, .refl s, ha⟩

/-- What is accepted by two readers one behind the other. -/
theorem bind (hp : Accepts p ts (us ++ tail) P) (hf : ∀ a, P a → Accepts (f a) us tail Q) :
    Accepts (p >>= f) (ts ++ us) tail Q := by
  intro s hs hlegible
  have hbind : (p >>= f) s = Parser.bind p f s := rfl
  rw [hbind, Parser.bind]
  rcases hp s (by rw [hs, List.append_assoc]) hlegible with hstarved | ⟨a, s', hread, hpass, ha⟩
  · rw [hstarved]
    exact .inl rfl
  · have hrest : s'.rest = us ++ tail := by
      rw [hpass.rest, List.append_assoc] at hs
      exact List.append_cancel_left hs
    rw [hread]
    rcases hf a ha s' hrest fun t ht => hlegible t (hpass.rest ▸ List.mem_append_right ts ht) with
      hstarved | ⟨b, s'', hread', hpass', hb⟩
    · exact .inl hstarved
    · exact .inr ⟨b, s'', hread', hpass.trans hpass', hb⟩

/-- The first of the two reads a single token. -/
theorem cons (hp : Accepts p [t] (us ++ tail) P) (hf : ∀ a, P a → Accepts (f a) us tail Q) :
    Accepts (p >>= f) (t :: us) tail Q := bind hp hf

/-- A reader that reads nothing more behind `p`. -/
theorem map (hp : Accepts p ts tail P) (hf : ∀ a, P a → Accepts (f a) [] tail Q) :
    Accepts (p >>= f) ts tail Q := by
  rw [← List.append_nil ts]
  exact bind hp hf

/-- What is accepted may be known to be more than is asked for. -/
theorem weaken {P' : α → Prop} (hp : Accepts p ts tail P) (h : ∀ a, P a → P' a) :
    Accepts p ts tail P' := by
  intro s hs hlegible
  rcases hp s hs hlegible with hstarved | ⟨a, s', hread, hpass, ha⟩
  · exact .inl hstarved
  · exact .inr ⟨a, s', hread, hpass, h a ha⟩

/-- A reader that goes by the state it starts from. -/
theorem look {f : State → Parser β} (h : ∀ s : State, s.rest = ts ++ tail →
    s.kind = headKind (ts ++ tail) → (∀ t ∈ s.rest, t.Legible) → Accepts (f s) ts tail Q) :
    Accepts (Parser.state >>= f) ts tail Q :=
  fun s hs hlegible => h s hs (hs ▸ s.kind_eq_headKind) hlegible s hs hlegible

/-- A reader that passes the next token when this has the right kind. -/
theorem taking (value : Token → α)
    (hp : ∀ s : State, s.kind = t.kind → p s = .done (value s.peek) s.advance) (ht : t.kind ≠ .eof)
    (h : Accepts (f (value t)) us tail Q) : Accepts (p >>= f) (t :: us) tail Q := by
  have htake : Accepts p [t] (us ++ tail) (· = value t) := by
    intro s hs _
    have hpeek : s.peek = t := State.peek_of_rest hs
    have hkind : s.kind = t.kind := by rw [State.kind, hpeek]
    exact .inr ⟨value t, s.advance, hpeek ▸ hp s hkind, hpeek ▸ .advance (hkind ▸ ht), rfl⟩
  exact htake.bind fun a ha => ha ▸ h

/-- A reader that takes the next token, unless the text ends. -/
theorem next {f : Token → Parser β} (ht : t.kind ≠ .eof) (h : Accepts (f t) us tail Q) :
    Accepts (Parser.next >>= f) (t :: us) tail Q := taking id (fun _ _ => rfl) ht h

/-- A reader that expects a token finds it. -/
theorem expect {cause : GrammarCause} {f : Token → Parser β} (hkind : t.kind = kind)
    (ht : kind ≠ .eof) (h : Accepts (f t) us tail Q) :
    Accepts (Parser.expect kind cause >>= f) (t :: us) tail Q :=
  taking id (fun _ hs => if_pos (hs.trans hkind)) (hkind ▸ ht) h

/-- A reader that expects a closing delimiter finds it. -/
theorem closer {policy : Policy} {cause : GrammarCause} {f : Span → Parser β} (hkind : t.kind = kind)
    (ht : kind ≠ .eof) (h : Accepts (f t.span) us tail Q) :
    Accepts (Parser.closer policy kind cause >>= f) (t :: us) tail Q :=
  taking Token.span (fun _ hs => if_pos (hs.trans hkind)) (hkind ▸ ht) h

/-- A reader that looks for a token finds it. -/
theorem accept {f : Bool → Parser β} (hkind : t.kind = kind) (ht : kind ≠ .eof)
    (h : Accepts (f true) us tail Q) : Accepts (Parser.accept kind >>= f) (t :: us) tail Q :=
  taking (fun _ => true) (fun _ hs => if_pos (hs.trans hkind)) (hkind ▸ ht) h

/-- A token that is not there is not passed. -/
theorem decline {f : Bool → Parser β} (hkind : headKind (ts ++ tail) ≠ kind)
    (h : Accepts (f false) ts tail Q) : Accepts (Parser.accept kind >>= f) ts tail Q := by
  intro s hs hlegible
  have hbind : (Parser.accept kind >>= f) s = Parser.bind (Parser.accept kind) f s := rfl
  rw [hbind, Parser.bind, Parser.accept, if_neg (by rw [s.kind_eq_headKind, hs]; exact hkind)]
  exact h s hs hlegible

/-- A reader that passes over tokens which it has looked at before. -/
theorem pass {n : Nat} (hn : ts.length = n) (hts : ∀ t ∈ ts, t.kind ≠ .eof) :
    Accepts (Parser.pass n) ts tail fun _ => True := by
  intro s hs _
  exact .inr ⟨(), _, rfl, hn ▸ .advanceBy hs hts, trivial⟩

end Accepts

/-! ### Assignments and blocks

Readers of expressions look ahead for a destructuring assignment, which no operation looks like. -/

/-- `p` accepts operations in front of a token that does not go on with them, and sees whether something
can be assigned to them. -/
def AcceptsOperations (p : Parser Expr) : Prop :=
  ∀ ts e tail, Operation ts e → continuesOperation (headKind tail) = false →
    Accepts p ts tail fun a => e.isTarget = true → a.isTarget = true

section
variable {p : Parser Expr} {e : Expr} {fuel : Nat}

/-- The look ahead for names is not misled by an operation. -/
theorem operation_not_destructuring {s : State} (h : Operation ts e) (hs : s.rest = ts ++ tail)
    (he : e.isTarget = true ∨ headKind tail ≠ .assign) : s.destructuring? = none := by
  rw [State.destructuring?]
  split
  · rename_i hkind
    rw [Option.eq_none_iff_forall_ne_some]
    intro names hnames
    obtain ⟨us, equals, vs, htail, hus, hequals⟩ := destructuredNames_eq_some.mp hnames
    obtain ⟨r, hrest, -⟩ := State.rest_of_kind (s := s) (by simp [hkind])
    rw [hrest, List.tail_cons] at htail
    obtain ⟨htarget, hassign⟩ := h.not_destructuring hkind hus hequals
      (hs.symm.trans (hrest.trans (congrArg _ htail)))
    rcases he with he | he
    · rw [he] at htarget
      cases htarget
    · exact he hassign
  · rfl

/-- Something that can be assigned to is accepted in front of a sign of assignment. -/
theorem assignment_accepts {lhs : Expr} (hlhs : lhs.isTarget = true) (value : Expr) (equals : Span) :
    Accepts (assignment .strict lhs value equals) [] tail fun _ => True := by
  cases lhs with
  | identifier a name => exact .pure trivial
  | field a target key keySpan => exact .pure trivial
  | _ => cases hlhs

/-- An expression, where neither an operator nor a sign of assignment follows. -/
theorem expression_accepts (ho : AcceptsOperations p) (h : Expression Operation ts e)
    (htail : continuesOperation (headKind tail) = false) (hassign : headKind tail ≠ .assign) :
    Accepts (expression .strict p) ts tail fun _ => True := by
  refine .look fun s hs hkind _ => ?_
  cases h with
  | @destructure lparen equals names us texts value hopen hnames hequals hvalue =>
    have hlook : s.destructuring? = some texts := by
      rw [State.destructuring?, if_pos (hkind.trans hopen), hs]
      exact destructuredNames_eq_some.mpr ⟨names, equals, us ++ tail, by simp, hnames, hequals⟩
    rw [hlook]
    refine .next (by simp [hopen]) ((Accepts.pass hnames.length_eq hnames.ne_eof).bind
      fun _ _ => .next (by simp [hequals]) ((ho us value tail hvalue htail).map
        fun _ _ => .pure trivial))
  | bind hlhs hequals hvalue | store hlhs hequals hvalue =>
    rw [operation_not_destructuring hlhs (hs.trans (List.append_assoc ..)) (.inl rfl)]
    refine (ho _ _ _ hlhs ?_).bind fun lhs hl => .look fun s _ hkind _ => ?_
    · rw [List.cons_append, headKind_cons, hequals]
      rfl
    · rw [if_pos (hkind.trans hequals)]
      exact .next (by simp [hequals]) ((ho _ _ _ hvalue htail).map fun value _ =>
        assignment_accepts (hl rfl) _ _)
  | operation he =>
    rw [operation_not_destructuring he hs (.inr hassign)]
    refine (ho _ _ _ he htail).map fun lhs _ => .look fun s _ hkind _ => ?_
    rw [if_neg (by rw [hkind]; exact hassign)]
    exact .pure trivial

/-- Separators start with a newline or a semicolon. -/
theorem separators_front (hts : Separators ts) (hne : ts ≠ []) (us : List Token) :
    headKind (ts ++ us) = .newline ∨ headKind (ts ++ us) = .semicolon := by
  obtain ⟨t, ts, rfl⟩ := List.exists_cons_of_ne_nil hne
  exact hts t List.mem_cons_self

/-- The separators that stand in front of something else are all that are passed. -/
theorem skipSeparators_passes {seps : List Token} (hseps : Separators seps)
    (hts : ¬ (headKind ts = .newline ∨ headKind ts = .semicolon)) {s : State}
    (hs : s.rest = seps ++ ts) : s.Passes seps s.skipSeparators := by
  obtain ⟨seps', hseps', hpass, hend⟩ := State.Passes.skipSeparators s
  have hstop : ¬ (headKind s.skipSeparators.rest = .newline ∨
      headKind s.skipSeparators.rest = .semicolon) := by
    rw [← State.kind_eq_headKind]
    simpa [State.atSeparator] using hend
  suffices hsame : seps' = seps from hsame ▸ hpass
  rcases List.append_eq_append_iff.mp (hpass.rest.symm.trans hs) with
    ⟨more, rfl, hmore⟩ | ⟨more, rfl, rfl⟩
  · by_contra hne
    refine hstop (hmore ▸ separators_front (fun t ht => hseps t (List.mem_append_right _ ht)) ?_ ts)
    rintro rfl
    simp at hne
  · by_contra hne
    refine hts (separators_front (fun t ht => hseps' t (List.mem_append_right _ ht)) ?_ _)
    rintro rfl
    simp at hne

/-- Behind the first of some statements there are separators, or nothing. -/
theorem statements_cases {P : Phrase Expr} {es : List Expr} (h : Statements P ts es) :
    ∃ first e onward es', ts = first ++ onward ∧ P first e ∧ Body P onward es' ∧
      ∀ tail, headKind (onward ++ tail) = .newline ∨ headKind (onward ++ tail) = .semicolon ∨
        headKind (onward ++ tail) = headKind tail := by
  cases h with
  | @last first seps e he hseps =>
    refine ⟨first, e, seps, [], rfl, he, .empty hseps, fun tail => ?_⟩
    by_cases hne : seps = []
    · exact .inr (.inr (hne ▸ rfl))
    · exact (separators_front hseps hne tail).imp_right .inl
  | @more first seps us e es he hseps hne hes =>
    refine ⟨first, e, seps ++ us, es, List.append_assoc .., he, .full hseps hes, fun tail => ?_⟩
    rw [List.append_assoc]
    exact (separators_front hseps hne _).imp_right .inl

/-- `p` accepts the statements of a block. -/
def AcceptsStatements (p : Parser Expr) : Prop :=
  ∀ ts e tail, Expression Operation ts e → continuesOperation (headKind tail) = false →
    headKind tail ≠ .assign → Accepts p ts tail fun _ => True

/-- Behind separators a block ends in front of its closer. -/
theorem block_at_closer {closer : TokenKind} (hcloser : closer = .rightBrace ∨ closer = .eof)
    {read : List Expr} (hseps : Separators ts) (htail : headKind tail = closer) :
    Accepts (block closer p fuel read) ts tail (· = read.reverse) := by
  intro s hs _
  cases fuel with
  | zero => exact .inl rfl
  | succ rounds =>
    have hskip : s.Passes ts s.skipSeparators := by
      refine skipSeparators_passes hseps ?_ hs
      rw [htail]
      rcases hcloser with rfl | rfl <;> simp
    have hrest : s.skipSeparators.rest = tail :=
      List.append_cancel_left (hskip.rest.symm.trans hs)
    rw [block_succ, if_pos (by rw [State.atEnd, State.kind_eq_headKind, hrest, htail]; simp)]
    exact .inr ⟨_, _, rfl, hskip, rfl⟩

/-- Behind separators a block reads its next statement, and then the rest. -/
theorem block_next {closer : TokenKind} {rounds : Nat} {read : List Expr} {seps us : List Token}
    {P : Expr → Prop} {Q : List Expr → Prop} (hseps : Separators seps)
    (hfront : ¬ (headKind ts = .newline ∨ headKind ts = .semicolon))
    (hmore : headKind ts ≠ closer ∧ headKind ts ≠ .eof) (hafter : headKind (us ++ tail) = .newline ∨
      headKind (us ++ tail) = .semicolon ∨ headKind (us ++ tail) = closer)
    (hp : Accepts p ts (us ++ tail) P)
    (hread : ∀ e, P e → Accepts (block closer p rounds (e :: read)) us tail Q) :
    Accepts (block closer p (rounds + 1) read) (seps ++ (ts ++ us)) tail Q := by
  -- first the separators in front of the statement are passed
  intro s hs hlegible
  have hne : ts ≠ [] := by
    rintro rfl
    exact hmore.2 rfl
  have hkind : headKind (ts ++ (us ++ tail)) = headKind ts := headKind_append hne _
  rw [List.append_assoc, List.append_assoc] at hs
  have hstop : ¬ (headKind (ts ++ (us ++ tail)) = .newline ∨ headKind (ts ++ (us ++ tail)) = .semicolon) :=
    hkind ▸ hfront
  have hskip : s.Passes seps s.skipSeparators := skipSeparators_passes hseps hstop hs
  have hrest : s.skipSeparators.rest = ts ++ (us ++ tail) :=
    List.append_cancel_left (hskip.rest.symm.trans hs)
  have hopen : s.skipSeparators.atEnd closer ≠ true := by
    rw [State.atEnd, State.kind_eq_headKind, hrest, hkind]
    simp [hmore]
  have hlegible' : ∀ t ∈ s.skipSeparators.rest, t.Legible := fun t ht =>
    hlegible t (hskip.rest ▸ List.mem_append_right seps ht)
  -- then the statement
  rcases hp s.skipSeparators hrest hlegible' with hstarved | ⟨e, s', hfirst, hpass, he⟩
  · rw [block_succ, if_neg hopen, hstarved]
    exact .inl rfl
  -- behind it there is a separator or the end of the block, so the reader need not skip to one
  have hrest' : s'.rest = us ++ tail := List.append_cancel_left (hpass.rest.symm.trans hrest)
  have hsettled : (s'.atSeparator || s'.atEnd closer) = true := by
    rw [State.atSeparator, State.atEnd, State.kind_eq_headKind, hrest']
    rcases hafter with hkind | hkind | hkind <;> simp [hkind]
  have hlegible'' : ∀ t ∈ s'.rest, t.Legible := fun t ht =>
    hlegible' t (hpass.rest ▸ List.mem_append_right ts ht)
  rw [block_settled hopen hfirst hpass hne hsettled]
  -- the other statements are read in the next rounds
  rcases hread e he s' hrest' hlegible'' with hstarved | ⟨all, s'', hread', hpass', hall⟩
  · exact .inl hstarved
  · exact .inr ⟨all, s'', hread', List.append_assoc seps ts us ▸ (hskip.trans hpass).trans hpass', hall⟩

/-- The body of a function or of a program, in front of its end. -/
theorem block_accepts (hp : AcceptsStatements p) {closer : TokenKind}
    (hcloser : closer = .rightBrace ∨ closer = .eof) :
    ∀ (rounds : Nat) (read : List Expr) {ts tail : List Token} {es : List Expr},
      Body (Expression Operation) ts es → headKind tail = closer →
        Accepts (block closer p rounds read) ts tail fun _ => True
  | 0, _, _, _, _, _, _ => .starve
  | rounds + 1, read, ts, tail, es, hbody, htail => by
      cases hbody with
      | empty hseps => exact (block_at_closer hcloser hseps htail).weaken fun _ _ => trivial
      | @full seps body _ hseps hstatements =>
        obtain ⟨first, e, onward, es', rfl, he, honward, hafter⟩ := statements_cases hstatements
        have hstarts := he.front
        have hclose : headKind first ≠ closer :=
          ne_of_class hstarts (by rcases hcloser with rfl | rfl <;> rfl)
        -- The statement ends at a separator or at the closer.
        have hstop := htail ▸ hafter tail
        have hends : continuesOperation (headKind (onward ++ tail)) = false ∧
            headKind (onward ++ tail) ≠ .assign := by
          rcases hcloser with rfl | rfl <;> rcases hstop with hkind | hkind | hkind <;> rw [hkind] <;>
            exact ⟨rfl, by decide⟩
        exact block_next hseps (not_or.mpr ⟨ne_of_class hstarts rfl, ne_of_class hstarts rfl⟩)
          ⟨hclose, ne_of_class hstarts rfl⟩ hstop (hp first e _ he hends.1 hends.2)
          fun e' _ => block_accepts hp hcloser rounds (e' :: read) honward htail

/-! ### Functions and strings

The readers of functions, of their decorators and of strings. -/

/-- A string without interpolations, as decorators have them. -/
theorem plainText_accepts : ∀ (fuel : Nat) (read : String) {ts tail : List Token} {text : String},
    Content ts text → Accepts (plainText fuel read) ts tail (· = read ++ text)
  | 0, _, _, _, _, _ => .starve
  | fuel + 1, read, ts, tail, text, h => by
      refine .look fun s _ hkind _ => ?_
      cases h with
      | stop hquote =>
        have hkind : s.kind = .stringEnd := hkind.trans hquote
        rw [hkind, if_neg (by simp), if_neg (by simp)]
        exact .expect hquote (by simp) (.pure String.append_empty.symm)
      | more hcontent hrest =>
        rw [if_pos (hkind.trans hcontent), ← String.append_assoc]
        exact .next (by simp [hcontent]) (plainText_accepts fuel _ hrest)

theorem decoratorList_accepts : ∀ (rounds : Nat) (read : Decorators) {ts tail : List Token}
    {ds : List (String × Option String)}, Separated Decorator ts ds → headKind tail = .rightBracket →
      Accepts (decoratorList fuel rounds read) ts tail
        (· = ds.foldl (fun read d => Decorators.put d.1 d.2 read) read)
  | 0, _, _, _, _, _, _ => .starve
  | rounds + 1, read, ts, tail, ds, h, htail => by
      -- A decorator, and what the reader does with the rest of the list.
      have hone : ∀ {ts us tail d} {Q : Decorators → Prop}, Decorator ts d →
          headKind (us ++ tail) ≠ .assign → Accepts (do
            let more ← accept .comma
            if more then decoratorList fuel rounds (Decorators.put d.1 d.2 read)
            else Parser.pure (Decorators.put d.1 d.2 read)) us tail Q →
          Accepts (decoratorList fuel (rounds + 1) read) (ts ++ us) tail Q := by
        intro ts us tail d Q hd hassign hrest
        cases hd with
        | mark hname =>
          exact .expect hname (by simp) (.decline hassign hrest)
        | text hname hequals hquote hcontent =>
          refine .expect hname (by simp) (.accept hequals (by simp) (.expect hquote (by simp)
            ((plainText_accepts fuel "" hcontent).bind fun found hfound => ?_)))
          rw [hfound, String.empty_append]
          exact hrest
      cases h with
      | last hd =>
        rw [← List.append_nil ts]
        refine hone hd ?_ (.decline ?_ (.pure rfl))
        · rw [List.nil_append, htail]
          decide
        · rw [List.nil_append, htail]
          decide
      | more hd hcomma hds =>
        refine hone hd ?_ (.accept hcomma (by simp) (decoratorList_accepts rounds _ hds htail))
        rw [List.cons_append, headKind_cons, hcomma]
        decide

/-- The decorators in front of a function, if any. -/
theorem decorators_accepts {remarks : Decorators} (h : Remarks ts remarks)
    (htail : headKind tail = .leftBrace) :
    Accepts (decorators .strict fuel) ts tail (· = remarks) := by
  cases h with
  | none =>
    refine .decline ?_ (.pure rfl)
    rw [List.nil_append, htail]
    decide
  | empty hopen hclose =>
    refine .accept hopen (by simp) (.look fun s _ hkind _ => ?_)
    dsimp only
    rw [if_pos (hkind.trans hclose)]
    exact .closer hclose (by simp) (.pure rfl)
  | full hopen hds hclose =>
    rw [List.cons_append]
    refine .accept hopen (by simp) (.look fun s _ hkind _ => ?_)
    have hstarts := hds.front rfl fun _ _ hd => hd.front
    rw [List.append_assoc, headKind_append (ne_nil_of_headKind rfl hstarts)] at hkind
    dsimp only
    rw [if_neg (hkind ▸ ne_of_class hstarts rfl)]
    refine (decoratorList_accepts fuel [] hds ?_).bind fun _ hread => .closer hclose (by simp) (.pure hread)
    exact hclose

theorem function_accepts (ho : AcceptsOperations p) (h : Function Operation ts e) :
    Accepts (function .strict fuel p) ts tail fun _ => True := by
  obtain ⟨hremarks, hopen, hbody, hclose⟩ := h
  have hst : AcceptsStatements (expression .strict p) :=
    fun _ _ _ he htail hassign => expression_accepts ho he htail hassign
  rw [List.append_assoc, List.cons_append]
  refine .look fun s _ _ _ => (decorators_accepts hremarks ?_).bind fun _ _ =>
    .expect hopen (by simp) ((block_accepts hst (.inl rfl) fuel [] hbody ?_).bind fun _ _ =>
      .closer hclose (by simp) (.pure trivial))
  · exact hopen
  · exact hclose

/-- The parts of a string behind its opening quote. -/
theorem stringParts_accepts (ho : AcceptsOperations p) : ∀ (fuel : Nat) (read : Pieces)
    {ts tail : List Token} {pieces : Pieces} {r : Pieces × Span}, StringRest Operation pieces ts r →
      Accepts (stringParts .strict p fuel read) ts tail fun _ => True
  | 0, _, _, _, _, _, _ => .starve
  | fuel + 1, read, ts, tail, pieces, r, h => by
      refine .look fun s _ hkind _ => ?_
      cases h with
      | stop hquote =>
        have hkind : s.kind = .stringEnd := hkind.trans hquote
        rw [hkind]
        exact .next (by simp [hquote]) (.pure trivial)
      | content hcontent hrest =>
        have hkind : s.kind = .stringContent := hkind.trans hcontent
        rw [hkind]
        exact .next (by simp [hcontent]) (stringParts_accepts ho fuel _ hrest)
      | interpolation hmark he hclose hrest =>
        have hkind : s.kind = .interpolationStart := hkind.trans hmark
        rw [hkind]
        refine .next (by simp [hmark]) ((expression_accepts ho he ?_ ?_).bind fun _ _ =>
          .closer hclose (by simp) (stringParts_accepts ho fuel _ hrest))
        · rw [List.cons_append, headKind_cons, hclose]
          rfl
        · rw [List.cons_append, headKind_cons, hclose]
          decide

/-! ### Primaries and arguments

The readers of what operands are made of. -/

/-- A primary is accepted, and a name is read as one, so that it can be assigned to. -/
theorem primary_accepts (ho : AcceptsOperations p) (h : Primary Operation ts e) :
    Accepts (primary .strict fuel p) ts tail fun a => e.isTarget = true → a.isTarget = true := by
  refine .look fun s hs hkind hlegible => ?_
  dsimp only
  rw [State.kind] at hkind
  cases h with
  | name hname =>
    -- names and operators are read alike
    rcases hname with hname | hname <;> rw [hkind, List.cons_append, headKind_cons, hname] <;>
      exact .next (by simp [hname]) (.pure fun _ => rfl)
  -- the lexer makes no number that cannot be read
  | @number t hnumber =>
    have hpeek : s.peek = t := State.peek_of_rest hs
    obtain ⟨value, hvalue⟩ := Option.isSome_iff_exists.mp
      (hlegible t (hs ▸ List.mem_append_left tail List.mem_cons_self) hnumber)
    rw [hpeek, hnumber]
    refine .next (by simp [hnumber]) ?_
    rw [hvalue]
    exact .pure (absurd · Bool.false_ne_true)
  -- a string has parts, so it cannot be assigned to
  | @string quote ts pieces stop hquote hrest =>
    rw [hkind, List.cons_append, headKind_cons, hquote]
    refine .next (by simp [hquote]) ((stringParts_accepts ho fuel _ hrest).map fun _ _ =>
      .pure fun htarget => ?_)
    rw [isTarget_build (hrest.parts_length (by simp))] at htarget
    cases htarget
  | function hfunction =>
    have hread : Accepts (function .strict fuel p) ts tail fun a =>
        e.isTarget = true → a.isTarget = true :=
      (function_accepts ho hfunction).weaken fun _ _ htarget =>
        absurd (hfunction.isTarget.symm.trans htarget) Bool.false_ne_true
    rw [headKind_append (ne_nil_of_headKind rfl hfunction.opens)] at hkind
    rcases hfunction.front with hfront | hfront <;> rw [hkind, hfront] <;> exact hread
  | bracket hopen he hclose =>
    rw [hkind, List.cons_append, List.cons_append, headKind_cons, hopen]
    refine .next (by simp [hopen]) ((expression_accepts ho he ?_ ?_).bind fun _ _ =>
      .closer hclose (by simp) (.pure (absurd · Bool.false_ne_true)))
    · rw [List.cons_append, headKind_cons, hclose]
      rfl
    · rw [List.cons_append, headKind_cons, hclose]
      decide

/-- An argument in front of the next one, or of the end of all. -/
theorem argument_accepts (ho : AcceptsOperations p) {arg : Argument Expr}
    (h : Passed Operation ts arg) (htail : headKind tail = .comma ∨ headKind tail = .rightParen) :
    Accepts (argument p) ts tail fun _ => True := by
  -- neither a comma nor a parenthesis goes on with an operation
  have hends : continuesOperation (headKind tail) = false ∧ headKind tail ≠ .assign := by
    rcases htail with hkind | hkind <;> rw [hkind] <;> exact ⟨rfl, by decide⟩
  refine .look fun s hs hkind _ => ?_
  cases h with
  | @named name equals ts value hname hequals hvalue =>
    have hnamed : s.atNamedArgument = true := by
      rw [State.atNamedArgument, State.atName, hkind, hs]
      rcases hname with hname | hname <;> simp [hname, hequals]
    rw [if_pos hnamed]
    exact .next hname.ne_eof (.next (by simp [hequals]) ((ho _ _ _ hvalue hends.1).map
      fun _ _ => .pure trivial))
  | positional hvalue =>
    -- if the argument looked like a named one, a sign of assignment would go on with its first operation
    have hpositional : s.atNamedArgument ≠ true := by
      intro hnamed
      obtain ⟨hname, hassign⟩ := atNamedArgument_spec hnamed
      have hpass := State.Passes.advance (s := s) hname.ne_eof
      have hfront : headKind ts = s.peek.kind := by
        rw [← headKind_append hvalue.ne_nil tail, ← hkind, State.kind]
      obtain ⟨t, us, rfl, hus⟩ := hvalue.of_name (hfront ▸ hname)
      have hrest : s.advance.rest = us ++ tail := (List.cons.inj (hpass.rest.symm.trans hs)).2
      rw [State.kind_eq_headKind, hrest] at hassign
      rcases hus with rfl | hus
      · exact hends.2 hassign
      · rw [headKind_append (ne_nil_of_headKind rfl hus)] at hassign
        exact ne_of_class hus rfl hassign
    rw [if_neg hpositional]
    exact (ho _ _ _ hvalue hends.1).map fun _ _ => .pure trivial

/-- Arguments, and perhaps a comma behind the last. -/
theorem argumentList_accepts (ho : AcceptsOperations p) : ∀ (fuel : Nat)
    (read : List (Argument Expr)) {ts us tail : List Token} {args : List (Argument Expr)},
      Separated (Passed Operation) ts args → OptionalComma us → headKind tail = .rightParen →
        Accepts (argumentList p fuel read) (ts ++ us) tail fun _ => True
  | 0, _, _, _, _, _, _, _, _ => .starve
  | fuel + 1, read, ts, us, tail, args, h, hus, htail => by
      cases h with
      -- behind the last argument there may be one more comma
      | last harg =>
        rcases hus with rfl | ⟨comma, hcomma, rfl⟩
        · refine (argument_accepts ho harg (.inr htail)).bind fun _ _ => .decline ?_ ?_
          · rw [List.nil_append, htail]
            decide
          · exact .look fun s _ _ _ => .pure trivial
        · refine (argument_accepts ho harg ?_).bind fun _ _ => .accept hcomma (by simp)
            (.look fun s _ hkind _ => ?_)
          · exact .inl hcomma
          · rw [if_neg (by simp [hkind, htail])]
            exact .pure trivial
      | @more first rest comma arg args harg hcomma hargs =>
        rw [List.append_assoc, List.cons_append]
        refine (argument_accepts ho harg ?_).bind fun _ _ => .accept hcomma (by simp)
          (.look fun s _ hkind _ => ?_)
        -- behind the others there is a comma and an argument
        · exact .inl hcomma
        · have hstarts := hargs.front rfl fun _ _ harg => harg.front
          have hmore : headKind rest ≠ .rightParen := ne_of_class hstarts rfl
          rw [List.append_assoc, headKind_append (ne_nil_of_headKind rfl hstarts)] at hkind
          rw [if_pos (by simpa [hkind] using hmore)]
          exact argumentList_accepts ho fuel _ hargs hus htail

/-- Functions behind a call are all read as arguments of this call. -/
theorem trailing_accepts (ho : AcceptsOperations p) : ∀ (rounds : Nat) (read : List Expr) (stop : Span)
    {ts tail : List Token} {fs : List Expr}, Repeated (Function Operation) ts fs →
      headKind tail ≠ .leftBrace → headKind tail ≠ .leftBracket →
        Accepts (trailing .strict fuel p rounds read stop) ts tail fun _ => True
  | 0, _, _, _, _, _, _, _, _ => .starve
  | rounds + 1, read, stop, ts, tail, fs, h, hbrace, hbracket => by
      refine .look fun s _ hkind _ => ?_
      cases h with
      | nil =>
        rw [if_neg (by simpa [State.startsFunction, hkind] using ⟨hbrace, hbracket⟩)]
        exact .pure trivial
      | cons hf hfs =>
        rw [List.append_assoc, headKind_append (ne_nil_of_headKind rfl hf.opens)] at hkind
        rw [if_pos (by simpa [State.startsFunction, hkind] using hf.front)]
        exact (function_accepts ho hf).bind fun f _ => trailing_accepts ho rounds _ _ hfs hbrace hbracket

/-! ### Calls and fields

How trailing functions are shared out among calls makes no difference to what is accepted, so calls are
taken apart into their parentheses and functions. -/

/-- Parentheses with arguments and functions, in any order. -/
inductive Items : List Token → Prop
  | nil : Items []
  | parens {ts us : List Token} {r : List (Argument Expr) × Span} :
      Parens Operation ts r → Items us → Items (ts ++ us)
  | function {ts us : List Token} {f : Expr} : Function Operation ts f → Items us → Items (ts ++ us)

theorem Items.functions {fs : List Expr} (h : Repeated (Function Operation) ts fs) (hus : Items us) :
    Items (ts ++ us) := by
  induction h with
  | nil => exact hus
  | cons hf _ ih =>
    rw [List.append_assoc]
    exact .function hf ih

theorem Items.callArgs {a : Arguments} (h : CallArgs Operation ts a) (hus : Items us) :
    Items (ts ++ us) := by
  cases h with
  | parens hparens hfunctions =>
    rw [List.append_assoc]
    exact .parens hparens (.functions hfunctions hus)
  | functions hfunctions => exact .functions hfunctions hus

/-- Calls one after the other are items, no matter to which of them the functions belong. -/
theorem Items.calls {e' : Expr} (h : Calls Operation e ts e') : Items ts := by
  induction h with
  | nil => exact .nil
  | cons ha _ ih => exact .callArgs ha ih

/-- The functions in front, and what starts with parentheses or is nothing. -/
theorem Items.split (h : Items ts) : ∃ fs functions us, ts = fs ++ us ∧
    Repeated (Function Operation) fs functions ∧ Items us ∧ (us = [] ∨ headKind us = .leftParen) := by
  induction h with
  | nil => exact ⟨[], [], [], rfl, .nil, .nil, .inl rfl⟩
  | @parens ts us r hparens hus =>
    refine ⟨[], [], ts ++ us, rfl, .nil, .parens hparens hus, .inr ?_⟩
    rw [headKind_append (ne_nil_of_headKind rfl hparens.opens)]
    exact hparens.front
  | @function ts us f hf hus ih =>
    obtain ⟨fs, functions, vs, rfl, hfunctions, hvs, hfront⟩ := ih
    exact ⟨ts ++ fs, f :: functions, vs, (List.append_assoc ..).symm, .cons hf hfunctions, hvs, hfront⟩

theorem parens_accepts (ho : AcceptsOperations p) {r : List (Argument Expr) × Span}
    {fs : List Expr} (h : Parens Operation ts r) (hus : Repeated (Function Operation) us fs)
    (hbrace : headKind tail ≠ .leftBrace) (hbracket : headKind tail ≠ .leftBracket) :
    Accepts (arguments .strict fuel p) (ts ++ us) tail fun _ => True := by
  refine .look fun s _ hkind _ => ?_
  rw [List.append_assoc, headKind_append (ne_nil_of_headKind rfl h.opens), h.front] at hkind
  rw [if_pos hkind]
  -- the closing parenthesis and what follows it, whatever the arguments
  have hclose : ∀ {rparen : Token} (args : List (Argument Expr)), rparen.kind = .rightParen →
      Accepts (do
        let stop ← closer .strict .rightParen .unclosedArguments
        let r ← trailing .strict fuel p fuel [] stop
        Parser.pure (⟨args, r.1, r.2⟩ : Arguments)) (rparen :: us) tail fun _ => True :=
    fun args hclose => .closer hclose (by simp) ((trailing_accepts ho fuel _ _ hus hbrace hbracket).map
      fun _ _ => .pure trivial)
  cases h with
  | empty hopen hrparen =>
    refine .next (by simp [hopen]) (.look fun s _ hkind _ => ?_)
    dsimp only
    rw [if_pos (hkind.trans hrparen)]
    exact hclose [] hrparen
  | @full lparen rparen ts commas args hopen hargs hcommas hrparen =>
    rw [List.append_assoc, List.append_assoc, List.cons_append]
    refine .next (by simp [hopen]) (.look fun s _ hkind _ => ?_)
    -- no argument starts with the parenthesis that closes them
    have hstarts := hargs.front rfl fun _ _ harg => harg.front
    rw [List.append_assoc, headKind_append (ne_nil_of_headKind rfl hstarts)] at hkind
    dsimp only
    rw [if_neg (hkind ▸ ne_of_class hstarts rfl), ← List.append_assoc]
    refine (argumentList_accepts ho fuel [] hargs hcommas ?_).bind fun args _ => hclose args hrparen
    exact hrparen

/-- Where items follow, arguments are read from some of them. -/
theorem arguments_accepts (ho : AcceptsOperations p) (fuel : Nat) (h : Items ts) (hne : ts ≠ [])
    (htail : opensCall (headKind tail) = false) : ∃ us vs, ts = us ++ vs ∧ Items vs ∧
      Accepts (arguments .strict fuel p) us (vs ++ tail) fun _ => True := by
  have hstop : ∀ {us}, us = [] ∨ headKind us = .leftParen →
      headKind (us ++ tail) ≠ .leftBrace ∧ headKind (us ++ tail) ≠ .leftBracket := by
    rintro us (rfl | hus)
    · exact ⟨(ne_of_class rfl htail).symm, (ne_of_class rfl htail).symm⟩
    · have hne : us ≠ [] := by
        rintro rfl
        cases hus
      rw [headKind_append hne, hus]
      exact ⟨by decide, by decide⟩
  cases h with
  | nil => exact absurd rfl hne
  -- the functions right behind the parentheses belong to the same call, the other items to later ones
  | @parens ps us r hparens hus =>
    obtain ⟨fs, functions, vs, rfl, hfunctions, hvs, hfront⟩ := hus.split
    obtain ⟨hbrace, hbracket⟩ := hstop hfront
    exact ⟨ps ++ fs, vs, (List.append_assoc ..).symm, hvs,
      parens_accepts ho hparens hfunctions hbrace hbracket⟩
  -- without parentheses the first functions make the call
  | @function gs us f hf hus =>
    obtain ⟨fs, functions, vs, rfl, hfunctions, hvs, hfront⟩ := hus.split
    obtain ⟨hbrace, hbracket⟩ := hstop hfront
    refine ⟨gs ++ fs, vs, (List.append_assoc ..).symm, hvs, .look fun s _ hkind _ => ?_⟩
    rw [List.append_assoc, headKind_append (ne_nil_of_headKind rfl hf.opens)] at hkind
    rw [if_neg (by rcases hf.front with hfront | hfront <;> simp [hkind, hfront])]
    exact (trailing_accepts ho fuel _ _ (.cons hf hfunctions) hbrace hbracket).map
      fun _ _ => .pure trivial

/-- A reader takes up the arguments of a call exactly in front of a token that opens a call. -/
theorem startsArguments_eq (s : State) : s.startsArguments = opensCall s.kind := by
  rw [State.startsArguments]
  cases s.kind <;> rfl

/-- Items start with a token that opens a call. -/
theorem Items.opens (h : Items ts) (hne : ts ≠ []) : opensCall (headKind ts) = true := by
  cases h with
  | nil => exact absurd rfl hne
  | parens hparens _ =>
    rw [headKind_append (ne_nil_of_headKind rfl hparens.opens)]
    exact hparens.opens
  | function hf _ =>
    rw [headKind_append (ne_nil_of_headKind rfl hf.opens)]
    exact hf.opens

/-- Without items nothing is called. -/
theorem callTail_accepts (ho : AcceptsOperations p) : ∀ (rounds : Nat) (e : Expr)
    {ts tail : List Token}, Items ts → opensCall (headKind tail) = false →
      Accepts (callTail .strict fuel p rounds e) ts tail fun a => ts = [] → a = e
  | 0, _, _, _, _, _ => .starve
  | rounds + 1, e, ts, tail, h, htail => by
      refine .look fun s _ hkind _ => ?_
      rw [startsArguments_eq, hkind]
      by_cases hne : ts = []
      · subst hne
        rw [List.nil_append, htail]
        exact .pure fun _ => rfl
      · obtain ⟨us, vs, rfl, hvs, hread⟩ := arguments_accepts ho fuel h hne htail
        rw [headKind_append hne, h.opens hne, if_pos rfl]
        exact hread.bind fun a _ => (callTail_accepts ho rounds _ hvs htail).weaken
          fun _ _ hnil => absurd hnil hne

theorem fieldKey_accepts {key : Key} (h : KeyToken t key) (dot : Span) :
    Accepts (fieldKey .strict dot) [t] tail fun _ => True := by
  refine .look fun s hs _ _ => ?_
  have hpeek : s.peek = t := State.peek_of_rest hs
  dsimp only
  rw [hpeek]
  cases h with
  | name hname =>
    rcases hname with hname | hname <;> rw [hname] <;>
      exact .next (by simp [hname]) (.pure trivial)
  | index hnumber hn =>
    rw [hnumber]
    refine .next (by simp [hnumber]) ?_
    rw [hn]
    exact .pure trivial

/-- Fields, or what follows where there are none, cannot be taken for arguments. -/
theorem fields_open_no_call {e' : Expr} (h : Fields Operation e ts e')
    (htail : continuesAccess (headKind tail) = false) : opensCall (headKind (ts ++ tail)) = false := by
  rcases h.front with ⟨rfl, -⟩ | hdot
  · exact opens_eq_false htail
  · rw [headKind_append (by rintro rfl; cases hdot), hdot]
    rfl

/-- What is read is a target if it should be, when that was so at the start. -/
theorem accessTail_accepts (ho : AcceptsOperations p) : ∀ (rounds : Nat) {e e' : Expr} (a : Expr)
    {ts tail : List Token}, Fields Operation e ts e' → (e.isTarget = true → a.isTarget = true) →
      continuesAccess (headKind tail) = false →
        Accepts (accessTail .strict fuel p rounds a) ts tail fun a' =>
          e'.isTarget = true → a'.isTarget = true
  | 0, _, _, _, _, _, _, _, _ => .starve
  | rounds + 1, e, e', a, ts, tail, h, ha, htail => by
      refine .look fun s _ hkind _ => ?_
      cases h with
      -- what does not go on with an access does not start with a dot
      | nil =>
        have hdot : s.kind ≠ .dot := by
          rw [hkind]
          exact (ne_of_class rfl htail).symm
        rw [if_neg hdot]
        exact .pure ha
      -- behind a key that no arguments follow there is another field, or the end
      | @field _ _ dot t ts key hdot hkey hfields =>
        rw [if_pos (hkind.trans hdot)]
        refine .next (by simp [hdot]) ((fieldKey_accepts hkey _).cons fun (key, keySpan) _ =>
          .look fun s _ hkind _ => ?_)
        rw [startsArguments_eq, hkind, fields_open_no_call hfields htail]
        exact accessTail_accepts ho rounds _ hfields (fun _ => rfl) htail
      -- the calls of the method may share out their functions in another way than the derivation does
      | @send _ called _ dot t ts us vs key args hdot hkey hargs hcalls hfields =>
        have hstop := fields_open_no_call hfields htail
        have hne : ts ++ us ≠ [] :=
          List.append_ne_nil_of_left_ne_nil (ne_nil_of_headKind rfl hargs.opens) us
        have hitems : Items (ts ++ us) := .callArgs hargs (.calls hcalls)
        obtain ⟨ws, xs, hsplit, hxs, hread⟩ := arguments_accepts ho fuel hitems hne hstop
        -- a call is nothing that can be assigned to, and neither is what is called on it
        have hcalled : called.isTarget = false := by
          rcases hcalls.front with ⟨-, rfl⟩ | ⟨-, htarget⟩
          · rfl
          · exact htarget
        have htokens : dot :: t :: ts ++ us ++ vs = dot :: t :: (ws ++ (xs ++ vs)) := by
          rw [← List.append_assoc ws, ← hsplit]
          rfl
        have hopens : opensCall (headKind (ws ++ (xs ++ vs) ++ tail)) = true := by
          rw [← List.append_assoc ws, ← hsplit, List.append_assoc, headKind_append hne]
          exact hitems.opens hne
        rw [if_pos (hkind.trans hdot), htokens]
        refine .next (by simp [hdot]) ((fieldKey_accepts hkey _).cons fun (key, keySpan) _ =>
          .look fun s _ hkind _ => ?_)
        rw [startsArguments_eq, hkind, hopens, if_pos rfl]
        rw [← List.append_assoc] at hread
        refine hread.bind fun args _ => (callTail_accepts ho fuel _ hxs hstop).bind fun a' _ =>
          accessTail_accepts ho rounds a' hfields (fun htarget => ?_) htail
        rw [hcalled] at htarget
        cases htarget

/-! ### Accesses and operations

An access is accepted in front of what does not go on with it, an operation likewise. -/

/-- An access is accepted, and a field is read as one, so that it can be assigned to. -/
theorem access_accepts (ho : AcceptsOperations p) (h : Access Operation ts e)
    (htail : continuesAccess (headKind tail) = false) :
    Accepts (access .strict fuel p) ts tail fun a => e.isTarget = true → a.isTarget = true := by
  obtain ⟨hprimary, hcalls, hfields⟩ := h
  rw [List.append_assoc]
  refine (primary_accepts ho hprimary).bind fun a ha => (callTail_accepts ho fuel a (.calls hcalls)
    (fields_open_no_call hfields htail)).bind fun called hcalled =>
      accessTail_accepts ho fuel called hfields (fun htarget => ?_) htail
  rcases hcalls.front with ⟨hnil, rfl⟩ | ⟨-, hnot⟩
  · rw [hcalled hnil]
    exact ha htarget
  · rw [hnot] at htarget
    cases htarget

end

/-- `p` accepts accesses in front of a token that does not go on with them. -/
def AcceptsAccesses (p : Parser Expr) : Prop :=
  ∀ ts e tail, Access Operation ts e → continuesAccess (headKind tail) = false →
    Accepts p ts tail fun a => e.isTarget = true → a.isTarget = true

/-- What follows the first access of an operation does not go on with this access. -/
theorem operators_open_no_access {rights : List (Token × Expr)}
    (h : Repeated (Operator (Access Operation)) ts rights)
    (htail : continuesOperation (headKind tail) = false) :
    continuesAccess (headKind (ts ++ tail)) = false := by
  cases h with
  | nil => exact continuesAccess_eq_false htail
  | cons hright _ =>
    obtain ⟨hname, -⟩ := hright
    rcases hname with hname | hname <;> simp [hname, continuesAccess, opensCall]

theorem operationTail_accepts {p : Parser Expr} (ho : AcceptsAccesses p) : ∀ (rounds : Nat)
    (lhs : Expr) {ts tail : List Token} {rights : List (Token × Expr)},
      Repeated (Operator (Access Operation)) ts rights → continuesOperation (headKind tail) = false →
        Accepts (operationTail p rounds lhs) ts tail fun a => ts = [] → a = lhs
  | 0, _, _, _, _, _, _ => .starve
  | rounds + 1, lhs, ts, tail, rights, h, htail => by
      refine .look fun s _ hkind _ => ?_
      cases h with
      | nil =>
        have hname : s.atName ≠ true := by
          rw [State.atName, hkind, List.nil_append]
          have hidentifier : headKind tail ≠ .identifier := (ne_of_class rfl htail).symm
          have hoperator : headKind tail ≠ .operator := (ne_of_class rfl htail).symm
          simp [hidentifier, hoperator]
        rw [if_neg hname]
        exact .pure fun _ => rfl
      | cons hright hrights =>
        obtain ⟨hname, hrhs⟩ := hright
        have hatName : s.atName = true := by
          rw [State.atName, hkind]
          rcases hname with hname | hname <;> simp [hname]
        rw [if_pos hatName, List.cons_append]
        exact .next hname.ne_eof ((ho _ _ _ hrhs (operators_open_no_access hrights htail)).bind
          fun a _ => (operationTail_accepts ho rounds _ hrights htail).weaken fun _ _ =>
            (absurd · (List.cons_ne_nil _ _)))

theorem operation_accepts : ∀ fuel : Nat, AcceptsOperations (operation .strict fuel)
  | 0, _, _, _, _, _ => .starve
  | fuel + 1, ts, e, tail, h, htail => by
      have haccess : AcceptsAccesses (access .strict fuel (operation .strict fuel)) :=
        fun _ _ _ h htail => access_accepts (operation_accepts fuel) h htail
      obtain ⟨@⟨first, operators, first', rights, hfirst, hrights⟩⟩ := h
      refine (haccess _ _ _ hfirst (operators_open_no_access hrights htail)).bind fun a ha =>
        (operationTail_accepts haccess fuel a hrights htail).weaken fun a' ha' htarget => ?_
      cases hrights with
      | nil =>
        rw [ha' rfl]
        exact ha htarget
      | cons _ _ =>
        rw [isTarget_foldl (fun _ _ => rfl) (List.cons_ne_nil _ _)] at htarget
        cases htarget

/-- A program, in front of the end of the text. -/
theorem program_accepts (fuel : Nat) {es : List Expr} (h : Body (Expression Operation) ts es)
    (htail : headKind tail = .eof) : Accepts (program .strict fuel) ts tail fun _ => True :=
  block_accepts (fun _ _ _ he => expression_accepts (operation_accepts fuel) he) (.inr rfl) fuel [] h
    htail

/-! ### Texts

From the grammar to the parser and back. -/

/-- Tokens that are passed up to the end are all but the end. -/
theorem eq_of_end {inner : List Token} {eof : Token} (h : ts ++ us = inner ++ [eof])
    (hts : ∀ t ∈ ts, t.kind ≠ .eof) (hinner : ∀ t ∈ inner, t.kind ≠ .eof) (heof : eof.kind = .eof)
    (hus : headKind us = .eof) : us = [eof] := by
  rcases List.append_eq_append_iff.mp h with ⟨more, rfl, rfl⟩ | ⟨more, rfl, hmore⟩
  · cases more with
    | nil => rfl
    | cons t more => exact absurd hus (hinner t (List.mem_append_right ts List.mem_cons_self))
  · cases more with
    | nil => exact hmore.symm
    | cons t more =>
      obtain ⟨rfl, -⟩ := List.cons.inj hmore
      exact absurd heof (hts _ (List.mem_append_right inner List.mem_cons_self))

/-- What a strict reader reads without complaint is a program. -/
theorem program_of_read {text : String} {fuel : Nat} {es : List Expr} {s : State}
    (h : program .strict fuel (.start (Token.ofText text).tokens) = .done es s)
    (herrors : s.errors = []) : Program (Token.ofText text).tokens es := by
  obtain ⟨inner, eof, htokens, heof, hinner⟩ := Token.ofText_spec text
  rcases program_alike fuel (Token.ofText text).tokens with
    ⟨ts, es', s', hread, -, hpass, hbody⟩ | ⟨e, hread, -⟩
  · rw [h] at hread
    cases hread
    have hkind : s.kind = .eof := by simpa [State.atEnd] using block_atEnd fuel [] _ h
    have hrest : s.rest = [eof] := eq_of_end (hpass.rest.symm.trans htokens) hpass.ne_eof
      (fun t ht => (hinner t ht).1) heof (s.kind_eq_headKind ▸ hkind)
    have hsplit : (Token.ofText text).tokens = ts ++ [eof] := hrest ▸ hpass.rest
    rw [hsplit]
    exact .mk hbody heof
  · rw [h] at hread
    have hnoted : [e] <:+ s.errors := hread
    rw [herrors] at hnoted
    simp at hnoted

/-- A program is read without complaint. -/
theorem read_of_program {text : String} {fuel : Nat} {es es' : List Expr} {s : State}
    (h : program .strict fuel (.start (Token.ofText text).tokens) = .done es s)
    (hprogram : Program (Token.ofText text).tokens es') : s.errors = [] := by
  have hlegible := Token.ofText_legible text
  generalize (Token.ofText text).tokens = tokens at *
  obtain @⟨ts, eof', _, hbody, hend⟩ := hprogram
  have hend : headKind [eof'] = .eof := hend
  rcases program_accepts fuel hbody hend (.start (ts ++ [eof'])) rfl hlegible with
    hstarved | ⟨es'', s', hread, hpass, -⟩
  · rw [h] at hstarved
    cases hstarved
  · rw [h] at hread
    cases hread
    exact hpass.errors

end Parser

open Protean.Parser Protean.Grammar

/-- **A strict reader accepts just the grammar.**  In a text whose characters are in order it finds no
error if and only if the tokens make a program, and then it gives a program that they stand for. -/
theorem strict_reader_accepts_grammar (text : String)
    (hlexical : (Expr.parse .strict text).lexical = []) :
    ((Expr.parse .strict text).grammar = [] ↔ ∃ es, Program (Token.ofText text).tokens es) ∧
      ((Expr.parse .strict text).grammar = [] → ∃ es, (Expr.parse .strict text).exprs = some es ∧
        Program (Token.ofText text).tokens es) := by
  obtain ⟨es, s, hread, hparse⟩ := Expr.parse_done .strict text
  rw [hparse] at hlexical ⊢
  have hlexed : (Token.ofText text).errors = [] := hlexical
  have hsound : s.errors.reverse = [] → Program (Token.ofText text).tokens es := fun h =>
    program_of_read hread (List.reverse_eq_nil_iff.mp h)
  refine ⟨⟨fun h => ⟨es, hsound h⟩, ?_⟩, fun h => ⟨es, ?_, hsound h⟩⟩
  · rintro ⟨es', hprogram⟩
    exact List.reverse_eq_nil_iff.mpr (read_of_program hread hprogram)
  · have hnone : s.errors.reverse = [] := h
    simp [hlexed, hnone]

/-- A call with a named argument and a trailing function between operators is a program, and a bracket
that is not closed is none. -/
theorem strict_reader_accepts_grammar_call :
    (∃ es, (Expr.parse .strict "a - b.f(k = c) \x7b \x7d").exprs = some es ∧
      Program (Token.ofText "a - b.f(k = c) \x7b \x7d").tokens es) ∧
      ¬ ∃ es, Program (Token.ofText "a - (b").tokens es := by
  have hfine : (Expr.parse .strict "a - b.f(k = c) \x7b \x7d").grammar = [] := rfl
  have hbroken : (Expr.parse .strict "a - (b").grammar ≠ [] := List.cons_ne_nil _ _
  refine ⟨(strict_reader_accepts_grammar "a - b.f(k = c) \x7b \x7d" rfl).2 hfine, fun hprogram => ?_⟩
  exact hbroken ((strict_reader_accepts_grammar "a - (b" rfl).1.mpr hprogram)

end Protean
