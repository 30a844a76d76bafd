import Protean.Proofs.Parser.Front
import Protean.Proofs.Parser.Progress

/-!
# Proofs — Parser — strict and tolerant readers in lockstep

A strict and a tolerant reader differ only in what they do about an error, so up to the first one they
do the same.  `Parser.Alike R p q` says that from every state `p` and `q` either read the same phrase of
`R` without complaint and are in the same state behind it, or both complain, and first about the same
error.  It goes through all readers, from the innermost to whole programs, with the phrases of the
grammar for `R`, so that it also says that readers read only what is grammatical.

**Strict and tolerant reading agree**: `strict_and_tolerant_agree`.

* `State.Passes ts`: the tokens between two states, if no error has been noted meanwhile.
* `Parser.AlikeAt`, `Parser.Alike`: the relation, at a state and at all states, with a rule for every combinator.
* `assignment_alike` … `program_alike`: the readers of the language, one lemma for each, in the order of `Phrase`.
-/

namespace Protean

namespace Parser

open Grammar

variable {α β : Type}

/-! ### Passing tokens without complaint

The tokens that have been read between two states. -/

/-- `s'` is behind the tokens `ts` of `s`, and nothing was noted on the way. -/
structure State.Passes (s : State) (ts : List Token) (s' : State) : Prop where
  rest : s.rest = ts ++ s'.rest
  ne_eof : ∀ t ∈ ts, t.kind ≠ .eof
  consumed : s'.consumed = s.consumed + ts.length
  errors : s'.errors = s.errors

namespace State

variable {s s' s'' : State} {ts us : List Token} {t : Token}

/-- The next token is the first one of those that are left. -/
theorem peek_of_rest (h : s.rest = t :: ts) : s.peek = t := by rw [peek, h, List.headD_cons]

@[simp] theorem errors_advance (s : State) : s.advance.errors = s.errors := by
  rw [advance]
  split
  · rfl
  · split <;> rfl

@[simp] theorem errors_synchronizeIn (depth : Nat) (tokens : List Token) (s : State) :
    (s.synchronizeIn depth tokens).errors = s.errors := by
  induction tokens generalizing s depth with
  | nil => rfl
  | cons t r ih =>
    rw [synchronizeIn]
    split <;> simp only [apply_ite State.errors, ih, errors_advance, ite_self]

namespace Passes

/-- Between a state and itself there are no tokens. -/
theorem refl (s : State) : s.Passes [] s := ⟨rfl, List.forall_mem_nil _, rfl, rfl⟩

/-- The tokens between states one after the other. -/
theorem trans (h : s.Passes ts s') (h' : s'.Passes us s'') : s.Passes (ts ++ us) s'' where
  rest := by rw [h.rest, h'.rest, List.append_assoc]
  ne_eof := List.forall_mem_append.mpr ⟨h.ne_eof, h'.ne_eof⟩
  consumed := by rw [h'.consumed, h.consumed, List.length_append, Nat.add_assoc]
  errors := h'.errors.trans h.errors

theorem advance (h : s.kind ≠ .eof) : s.Passes [s.peek] s.advance := by
  obtain ⟨r, hrest, hadvance⟩ := rest_of_kind h
  rw [hadvance]
  exact ⟨hrest, List.forall_mem_singleton.mpr h, rfl, rfl⟩

/-- Several tokens are taken, none of which is the end of the text. -/
theorem advanceBy (h : s.rest = ts ++ us) (hts : ∀ t ∈ ts, t.kind ≠ .eof) :
    s.Passes ts (s.advanceBy ts.length) := by
  induction ts generalizing s with
  | nil => exact refl s
  | cons t ts ih =>
    obtain ⟨ht, hts⟩ := List.forall_mem_cons.mp hts
    have hpeek : s.peek = t := peek_of_rest h
    have hpass : s.Passes [t] s.advance := hpeek ▸ advance (by rwa [kind, hpeek])
    have hrest : s.advance.rest = ts ++ us := List.cons.inj (hpass.rest.symm.trans h) |>.2
    exact hpass.trans (ih hrest hts)

/-- The separators in front are passed, all of them. -/
theorem skipSeparators (s : State) : ∃ seps, Separators seps ∧ s.Passes seps s.skipSeparators ∧
    s.skipSeparators.atSeparator = false := by
  -- the function skips along the tokens that are left, which are those of the state
  suffices h : ∀ (tokens : List Token) (s : State), s.rest = tokens → ∃ seps, Separators seps ∧
      s.Passes seps (s.skipSeparatorsIn tokens) ∧ (s.skipSeparatorsIn tokens).atSeparator = false from
    h s.rest s rfl
  intro tokens
  induction tokens with
  | nil =>
    intro s hrest
    refine ⟨[], List.forall_mem_nil _, refl s, ?_⟩
    rw [skipSeparatorsIn, atSeparator, kind, peek, hrest]
    rfl
  | cons t r ih =>
    intro s hrest
    have hpeek : s.peek = t := peek_of_rest hrest
    -- whichever separator it is, the others are skipped behind it
    have hmore : t.kind = .newline ∨ t.kind = .semicolon → ∃ seps, Separators seps ∧
        s.Passes seps (skipSeparatorsIn r s.advance) ∧
          (skipSeparatorsIn r s.advance).atSeparator = false := by
      intro hsep
      have hpass : s.Passes [t] s.advance := hpeek ▸ advance (by
        rw [kind, hpeek]
        rcases hsep with hsep | hsep <;> simp [hsep])
      have hr : s.advance.rest = r := List.cons.inj (hpass.rest.symm.trans hrest) |>.2
      obtain ⟨seps, hseps, hpasses, hend⟩ := ih s.advance hr
      exact ⟨t :: seps, List.forall_mem_cons.mpr ⟨hsep, hseps⟩, hpass.trans hpasses, hend⟩
    rw [skipSeparatorsIn]
    split
    · rename_i hkind
      exact hmore (.inl hkind)
    · rename_i hkind
      exact hmore (.inr hkind)
    · rename_i hnewline hsemicolon
      refine ⟨[], List.forall_mem_nil _, refl s, ?_⟩
      rw [atSeparator, kind, hpeek]
      simpa using ⟨hnewline, hsemicolon⟩

end Passes

end State

/-! ### Rules

A rule for every combinator of readers. -/

/-- All of `errors` were noted, and before all others. -/
def Reply.Notes (errors : List GrammarError) : Reply α → Prop
  | .done _ s => errors <:+ s.errors
  | .failed e s => errors <:+ e :: s.errors
  | .starved => True

/-- From `s` both readers read the same phrase of `R` and are in the same state behind it, or both
complain, and first about the same error. -/
def AlikeAt (R : Phrase α) (s : State) (p q : Parser α) : Prop :=
  (∃ ts a s', p s = .done a s' ∧ q s = .done a s' ∧ s.Passes ts s' ∧ R ts a) ∨
    ∃ e, (p s).Notes (e :: s.errors) ∧ (q s).Notes (e :: s.errors)

/-- Two readers that read the same phrase or complain first about the same, from every state. -/
def Alike (R : Phrase α) (p q : Parser α) : Prop := ∀ s : State, AlikeAt R s p q

namespace AlikeAt

variable {P : Phrase α} {R : Phrase β} {s s' : State} {p q : Parser α} {f g : α → Parser β}
  {errors : List GrammarError}

/-- Errors that were noted before stay. -/
theorem notes (h : AlikeAt P s p q) (hs : errors <:+ s.errors) :
    (p s).Notes errors ∧ (q s).Notes errors := by
  rcases h with ⟨ts, a, s', hp, hq, hpass, -⟩ | ⟨e, hp, hq⟩
  · have hkept : errors <:+ s'.errors := hpass.errors ▸ hs
    rw [hp, hq]
    exact ⟨hkept, hkept⟩
  · have hmore : errors <:+ e :: s.errors := hs.trans (List.suffix_cons e s.errors)
    have hkeep : ∀ r : Reply α, r.Notes (e :: s.errors) → r.Notes errors := by
      intro r hr
      cases r with
      | done a s' => exact hmore.trans hr
      | failed e' s' => exact hmore.trans hr
      | starved => trivial
    exact ⟨hkeep _ hp, hkeep _ hq⟩

theorem blame (e : GrammarError) (hp : (p s).Notes (e :: s.errors))
    (hq : (q s).Notes (e :: s.errors)) : AlikeAt P s p q := .inr ⟨e, hp, hq⟩

theorem pure {P : Phrase α} {a : α} (h : P [] a) : AlikeAt P s (Parser.pure a) (Parser.pure a) :=
  .inl ⟨[], a, s, rfl, rfl, .refl s, h⟩

/-- Readers that go on from a state behind `ts`. -/
theorem step {u v : Parser α} {ts : List Token} (hpass : s.Passes ts s') (hp : p s = u s')
    (hq : q s = v s') (h : AlikeAt (fun us a => P (ts ++ us) a) s' u v) : AlikeAt P s p q := by
  rcases h with ⟨us, a, s'', hp', hq', hpass', ha⟩ | ⟨e, hp', hq'⟩
  · exact .inl ⟨ts ++ us, a, s'', hp.trans hp', hq.trans hq', hpass.trans hpass', ha⟩
  · rw [hpass.errors] at hp' hq'
    exact .inr ⟨e, hp ▸ hp', hq ▸ hq'⟩

/-- What follows must be a phrase with everything that may have been read.  It does the same on both
sides whatever was read, since it also follows a stand-in. -/
theorem bind (hp : AlikeAt P s p q)
    (hf : ∀ a, Alike (fun vs b => ∀ us, P us a → R (us ++ vs) b) (f a) (g a)) :
    AlikeAt R s (p >>= f) (q >>= g) := by
  have hbind : ∀ (p : Parser α) (f : α → Parser β), (p >>= f) s = Parser.bind p f s :=
    fun _ _ => rfl
  rcases hp with ⟨ts, a, s', hp, hq, hpass, ha⟩ | ⟨e, hp, hq⟩
  -- if the first readers read the same phrase, the second ones start from the same state
  · refine step hpass (u := f a) (v := g a) ?_ ?_ ?_
    · rw [hbind, Parser.bind, hp]
    · rw [hbind, Parser.bind, hq]
    · rcases hf a s' with ⟨us, b, s'', hp', hq', hpass', hb⟩ | hblame
      · exact .inl ⟨us, b, s'', hp', hq', hpass', hb ts ha⟩
      · exact .inr hblame
  -- an error that has been noted stays the first one, whatever the second readers do
  · refine .inr ⟨e, ?_, ?_⟩
    · rw [hbind, Parser.bind]
      cases hreply : p s with
      | done a s' =>
        rw [hreply] at hp
        exact ((hf a s').notes hp).1
      | failed e' s' => rwa [hreply] at hp
      | starved => trivial
    · rw [hbind, Parser.bind]
      cases hreply : q s with
      | done a s' =>
        rw [hreply] at hq
        exact ((hf a s').notes hq).2
      | failed e' s' => rwa [hreply] at hq
      | starved => trivial

/-- A phrase of another kind, if all phrases of the first kind are. -/
theorem weaken {Q : Phrase α} (h : AlikeAt P s p q) (hpq : ∀ ts a, P ts a → Q ts a) :
    AlikeAt Q s p q := by
  rcases h with ⟨ts, a, s', hp, hq, hpass, ha⟩ | hblame
  · exact .inl ⟨ts, a, s', hp, hq, hpass, hpq ts a ha⟩
  · exact .inr hblame

/-- A phrase that is read starts with the next token. -/
theorem front (h : AlikeAt (fun ts a => ts.headD s.peek = s.peek → P ts a) s p q) :
    AlikeAt P s p q := by
  rcases h with ⟨ts, a, s', hp, hq, hpass, ha⟩ | hblame
  · refine .inl ⟨ts, a, s', hp, hq, hpass, ha ?_⟩
    cases ts with
    | nil => rfl
    | cons t ts => exact (State.peek_of_rest hpass.rest).symm
  · exact .inr hblame

/-- Both look at the state, which is the same. -/
theorem look {f g : State → Parser β} (h : AlikeAt R s (f s) (g s)) :
    AlikeAt R s (Parser.state >>= f) (Parser.state >>= g) := h

/-- Readers that pass the token they have looked at. -/
theorem next {f g : Token → Parser β} (hkind : s.kind ≠ .eof)
    (h : AlikeAt (fun us b => R (s.peek :: us) b) s.advance (f s.peek) (g s.peek)) :
    AlikeAt R s (Parser.next >>= f) (Parser.next >>= g) := step (.advance hkind) rfl rfl h

theorem take {f g : Token → Parser β} (hkind : s.kind ≠ .eof)
    (h : Alike (fun us b => R (s.peek :: us) b) (f s.peek) (g s.peek)) :
    AlikeAt R s (Parser.next >>= f) (Parser.next >>= g) := next hkind (h s.advance)

/-- Readers that pass tokens they have looked at. -/
theorem pass {f g : Unit → Parser β} {n : Nat} {ts : List Token} (hpass : s.Passes ts (s.advanceBy n))
    (h : AlikeAt (fun us b => R (ts ++ us) b) (s.advanceBy n) (f ()) (g ())) :
    AlikeAt R s (Parser.pass n >>= f) (Parser.pass n >>= g) := step hpass rfl rfl h

/-- Where the strict reader fails, the tolerant one notes the same error. -/
theorem recover {P : Phrase α} (e : GrammarError) (a b : α) :
    AlikeAt P s (Parser.recover .strict e a) (Parser.recover .tolerant e b) :=
  blame e (List.suffix_refl _) (List.suffix_refl _)

end AlikeAt

namespace Alike

variable {P : Phrase α} {R : Phrase β} {p q : Parser α} {f g : α → Parser β}

theorem pure {a : α} (h : P [] a) : Alike P (Parser.pure a) (Parser.pure a) := fun _ => .pure h

/-- The phrases of two readers one behind the other. -/
theorem bind (hp : Alike P p q)
    (hf : ∀ a, Alike (fun vs b => ∀ us, P us a → R (us ++ vs) b) (f a) (g a)) :
    Alike R (p >>= f) (q >>= g) := fun s => (hp s).bind hf

theorem weaken {Q : Phrase α} (h : Alike P p q) (hpq : ∀ ts a, P ts a → Q ts a) : Alike Q p q :=
  fun s => (h s).weaken hpq

/-- A starved reader says nothing. -/
theorem starve : Alike P Parser.starve Parser.starve :=
  fun _ => .blame ⟨.expectedExpression, .empty 0⟩ trivial trivial

theorem fail (e : GrammarError) : Alike P (Parser.fail e) (Parser.fail e) :=
  fun _ => .blame e (List.suffix_refl _) (List.suffix_refl _)

theorem failHere (cause : GrammarCause) : Alike P (Parser.failHere cause) (Parser.failHere cause) :=
  fun s => .blame (s.errorHere cause) (List.suffix_refl _) (List.suffix_refl _)

/-- The token that is expected is found by both, or missed by both. -/
theorem expect {kind : TokenKind} (hkind : kind ≠ .eof) {cause : GrammarCause}
    {f g : Token → Parser β}
    (h : ∀ t : Token, t.kind = kind → Alike (fun us b => R (t :: us) b) (f t) (g t)) :
    Alike R (Parser.expect kind cause >>= f) (Parser.expect kind cause >>= g) := by
  intro s
  have hbind : ∀ f : Token → Parser β, (Parser.expect kind cause >>= f) s =
      Parser.bind (Parser.expect kind cause) f s := fun _ => rfl
  simp only [Parser.bind, Parser.expect] at hbind
  by_cases heq : s.kind = kind
  · simp only [if_pos heq] at hbind
    exact .step (.advance (heq ▸ hkind)) (hbind f) (hbind g) (h s.peek heq s.advance)
  · simp only [if_neg heq] at hbind
    refine .blame (s.errorHere cause) ?_ ?_ <;> rw [hbind] <;> exact List.suffix_refl _

/-- The token that is looked for is found by both or by neither. -/
theorem accept {kind : TokenKind} (hkind : kind ≠ .eof) {f g : Bool → Parser β}
    (ht : ∀ t : Token, t.kind = kind → Alike (fun us b => R (t :: us) b) (f true) (g true))
    (hf : Alike R (f false) (g false)) :
    Alike R (Parser.accept kind >>= f) (Parser.accept kind >>= g) := by
  intro s
  have hbind : ∀ f : Bool → Parser β, (Parser.accept kind >>= f) s =
      Parser.bind (Parser.accept kind) f s := fun _ => rfl
  simp only [Parser.bind, Parser.accept] at hbind
  by_cases heq : s.kind = kind
  · simp only [if_pos heq] at hbind
    exact .step (.advance (heq ▸ hkind)) (hbind f) (hbind g) (ht s.peek heq s.advance)
  · simp only [if_neg heq] at hbind
    exact .step (.refl s) (hbind f) (hbind g) (hf s)

/-- A closer that a tolerant reader imagines is noted as missing. -/
theorem closer {kind : TokenKind} (hkind : kind ≠ .eof) {cause : GrammarCause} {f g : Span → Parser β}
    (h : ∀ span, Alike (fun us b => ∀ t : Token, t.kind = kind → t.span = span → R (t :: us) b)
      (f span) (g span)) :
    Alike R (Parser.closer .strict kind cause >>= f) (Parser.closer .tolerant kind cause >>= g) := by
  intro s
  refine AlikeAt.bind (P := fun ts span => ∃ t : Token, ts = [t] ∧ t.kind = kind ∧ t.span = span) ?_
    fun span => (h span).weaken ?_
  · by_cases heq : s.kind = kind
    · refine .inl ⟨[s.peek], s.peek.span, s.advance, ?_, ?_, .advance (heq ▸ hkind), _, rfl, heq, rfl⟩
      · rw [Parser.closer, if_pos heq]
      · rw [Parser.closer, if_pos heq]
    · refine .blame (s.errorHere cause) ?_ ?_ <;> rw [Parser.closer, if_neg heq] <;>
        exact List.suffix_refl _
  · rintro us b hb _ ⟨t, rfl, htk, hts⟩
    exact hb t htk hts

end Alike

/-! ### Assignments and blocks

The first difference between the two readers is an error, and both note it first. -/

section
variable {R : Phrase Expr} {p q : Parser Expr} {fuel : Nat}

/-- What is assigned to is a target for both, or for neither. -/
theorem assignment_alike (R : Phrase Expr) (lhs value : Expr) (equals : Token) :
    Alike (fun vs e => vs = [] ∧ ∀ ts us, R ts lhs → equals.kind = .assign → R us value →
        Expression R (ts ++ equals :: us) e)
      (assignment .strict lhs value equals.span) (assignment .tolerant lhs value equals.span) := by
  unfold assignment
  split
  · exact .pure ⟨rfl, fun _ _ hlhs hequals hvalue => .bind hlhs hequals hvalue⟩
  · exact .pure ⟨rfl, fun _ _ hlhs hequals hvalue => .store hlhs hequals hvalue⟩
  · exact fun _ => .recover _ _ _

/-- The names of a destructuring assignment are told from the tokens. -/
theorem destructuring_alike (ho : Alike R p q) {s : State} {names : List String}
    (hnames : s.destructuring? = some names) :
    AlikeAt (Expression R) s (destructuring p names) (destructuring q names) := by
  rw [State.destructuring?] at hnames
  split at hnames
  · rename_i hkind
    obtain ⟨us, equals, vs, hrest, hus, hequals⟩ := destructuredNames_eq_some.mp hnames
    have hopen : s.Passes [s.peek] s.advance := .advance (by simp [hkind])
    rw [hopen.rest] at hrest
    have hpass : s.advance.Passes us (s.advance.advanceBy (2 * names.length)) :=
      hus.length_eq ▸ .advanceBy hrest hus.ne_eof
    have hpeek : (s.advance.advanceBy (2 * names.length)).peek = equals :=
      State.peek_of_rest (List.append_cancel_left (hpass.rest.symm.trans hrest))
    have hassign : (s.advance.advanceBy (2 * names.length)).kind = .assign := by
      rw [State.kind, hpeek, hequals]
    refine .next (by simp [hkind]) (.pass hpass (.take (by simp [hassign])
      (ho.bind fun value => .pure ?_)))
    intro ws hvalue
    rw [hpeek, List.append_nil]
    exact .destructure hkind hus hequals hvalue
  · cases hnames

theorem expression_alike (ho : Alike R p q) :
    Alike (Expression R) (expression .strict p) (expression .tolerant q) := by
  refine fun s => .look ?_
  split
  · rename_i names hnames
    exact destructuring_alike ho hnames
  · refine (ho s).bind fun lhs s' => .look ?_
    split
    · rename_i hequals
      refine .take (by simp [hequals]) (ho.bind fun value => ?_)
      refine (assignment_alike R lhs value s'.peek).weaken ?_
      rintro _ e ⟨rfl, he⟩ us hvalue ts hlhs
      rw [List.append_nil]
      exact he ts us hlhs hequals hvalue
    · exact .pure fun ts hlhs => by
        rw [List.append_nil]
        exact .operation hlhs

/-- What follows a statement up to the end of its block. -/
inductive Onward (P : Phrase Expr) : Phrase (List Expr)
  | done {seps : List Token} : Separators seps → Onward P seps []
  | more {seps ts : List Token} {es : List Expr} :
      Separators seps → seps ≠ [] → Statements P ts es → Onward P (seps ++ ts) es

theorem Onward.statements {P : Phrase Expr} {ts us : List Token} {e : Expr} {es : List Expr}
    (he : P ts e) (h : Onward P us es) : Statements P (ts ++ us) (e :: es) := by
  cases h with
  | done hseps => exact .last he hseps
  | more hseps hne hes =>
    rw [← List.append_assoc]
    exact .more he hseps hne hes

/-- To go on to the next statement notes no error. -/
theorem errors_nextStatement (closer : TokenKind) (before after : State) :
    (nextStatement closer before after).errors = after.errors := by
  rw [nextStatement]
  split
  · exact State.errors_advance after
  · rfl

/-- To settle behind a statement may note one more error. -/
theorem suffix_settle (closer : TokenKind) (s : State) : s.errors <:+ (settle closer s).errors := by
  rw [settle]
  split
  · exact List.suffix_refl _
  · rw [State.synchronize, State.errors_synchronizeIn]
    exact List.suffix_cons _ _

/-- A block keeps what a statement notes. -/
theorem block_notes {closer : TokenKind} {errors : List GrammarError} {rounds : Nat} {read : List Expr}
    {s : State} (hrounds : ∀ read s, errors <:+ s.errors → (block closer p rounds read s).Notes errors)
    (hend : s.skipSeparators.atEnd closer ≠ true) (hp : (p s.skipSeparators).Notes errors) :
    (block closer p (rounds + 1) read s).Notes errors := by
  rw [block_succ, if_neg hend]
  cases hreply : p s.skipSeparators with
  | done e s' =>
    rw [hreply] at hp
    refine hrounds _ _ ?_
    rw [errors_nextStatement]
    exact List.IsSuffix.trans hp (suffix_settle closer s')
  | failed e s' =>
    rw [hreply] at hp
    refine hrounds _ _ ?_
    rw [errors_nextStatement, State.synchronize, State.errors_synchronizeIn]
    exact hp
  | starved => trivial

/-- A statement that ends properly has passed a token, so none is dropped behind it. -/
theorem block_settled {closer : TokenKind} {rounds : Nat} {read : List Expr} {s s' : State}
    {e : Expr} {ts : List Token} (hend : s.skipSeparators.atEnd closer ≠ true)
    (hp : p s.skipSeparators = .done e s') (hpass : s.skipSeparators.Passes ts s') (hts : ts ≠ [])
    (hsettled : (s'.atSeparator || s'.atEnd closer) = true) :
    block closer p (rounds + 1) read s = block closer p rounds (e :: read) s' := by
  have hlength := List.length_pos_iff.mpr hts
  have hmoved : s'.consumed ≠ s.skipSeparators.consumed := by
    rw [hpass.consumed]
    omega
  rw [block_succ, if_neg hend, hp]
  dsimp only
  rw [settle, if_pos hsettled, nextStatement, if_neg (by simp [hmoved])]

/-- Behind a statement, where a separator or the end is, more statements come only behind
separators. -/
theorem block_alike {P : Phrase Expr} (hst : Alike P p q) (hne : ∀ ts e, P ts e → ts ≠ [])
    (closer : TokenKind) : ∀ (rounds : Nat) (read : List Expr) (s : State),
      AlikeAt (fun ts es => ∃ fresh, es = read.reverse ++ fresh ∧ Body P ts fresh ∧
          ((s.atSeparator || s.atEnd closer) = true → Onward P ts fresh)) s
        (block closer p rounds read) (block closer q rounds read)
  | 0, _, s => Alike.starve s
  | rounds + 1, read, s => by
      have ih := block_alike hst hne closer rounds
      obtain ⟨seps, hseps, hskip, hmore⟩ := State.Passes.skipSeparators s
      by_cases hend : s.skipSeparators.atEnd closer = true
      · refine .inl ⟨seps, read.reverse, s.skipSeparators, ?_, ?_, hskip, [], ?_⟩
        · rw [block_succ, if_pos hend]
        · rw [block_succ, if_pos hend]
        · exact ⟨(List.append_nil _).symm, .empty hseps, fun _ => .done hseps⟩
      rcases hst s.skipSeparators with ⟨ts, e, s', hp, hq, hpass, he⟩ | ⟨e, hp, hq⟩
      · by_cases hsettled : (s'.atSeparator || s'.atEnd closer) = true
        · have hround : ∀ r : Parser Expr, r s.skipSeparators = .done e s' →
              block closer r (rounds + 1) read s = block closer r rounds (e :: read) s' :=
            fun r hr => block_settled hend hr hpass (hne ts e he) hsettled
          refine .step (hskip.trans hpass) (hround p hp) (hround q hq) ((ih (e :: read) s').weaken ?_)
          rintro us es ⟨fresh, rfl, -, honward⟩
          have hfresh := (honward hsettled).statements he
          rw [List.append_assoc]
          refine ⟨e :: fresh, by simp, .full hseps hfresh, fun hsep => .more hseps ?_ hfresh⟩
          -- Without separators the block would have ended here.
          rintro rfl
          have hkind : s.kind = s.skipSeparators.kind := State.kind_eq_of_rest hskip.rest
          rw [State.atSeparator, State.atEnd, hkind, ← State.atSeparator, ← State.atEnd, hmore,
            Bool.false_or] at hsep
          exact hend hsep
        · have hround : ∀ r : Parser Expr, r s.skipSeparators = .done e s' →
              block closer r (rounds + 1) read s = block closer r rounds (e :: read)
                (nextStatement closer s.skipSeparators (settle closer s')) := by
            intro r hr
            rw [block_succ, if_neg hend, hr]
          have herrors : (nextStatement closer s.skipSeparators (settle closer s')).errors =
              s'.errorHere .expectedSeparator :: s.errors := by
            rw [errors_nextStatement, settle, if_neg hsettled, State.synchronize,
              State.errors_synchronizeIn, State.note, hpass.errors, hskip.errors]
          have hnoted : s'.errorHere .expectedSeparator :: s.errors <:+
              (nextStatement closer s.skipSeparators (settle closer s')).errors :=
            ⟨[], herrors.symm⟩
          refine .blame (s'.errorHere .expectedSeparator) ?_ ?_
          · rw [hround p hp]
            exact ((ih _ _).notes hnoted).1
          · rw [hround q hq]
            exact ((ih _ _).notes hnoted).2
      · rw [hskip.errors] at hp hq
        exact .blame e (block_notes (fun read s hs => ((ih read s).notes hs).1) hend hp)
          (block_notes (fun read s hs => ((ih read s).notes hs).2) hend hq)

/-- A body: up to the first error both readers are in the same round. -/
theorem body_alike {P : Phrase Expr} (hst : Alike P p q) (hne : ∀ ts e, P ts e → ts ≠ [])
    (closer : TokenKind) (rounds : Nat) :
    Alike (Body P) (block closer p rounds []) (block closer q rounds []) := by
  refine fun s => (block_alike hst hne closer rounds [] s).weaken ?_
  rintro ts _ ⟨es, rfl, hbody, -⟩
  exact hbody

/-! ### Functions and strings

The readers of functions, of their decorators and of strings. -/

theorem plainText_alike : ∀ (fuel : Nat) (text : String),
    Alike (fun ts read => ∃ rest, Content ts rest ∧ read = text ++ rest)
      (plainText fuel text) (plainText fuel text)
  | 0, _ => .starve
  | fuel + 1, text => by
      refine fun s => .look ?_
      split
      · rename_i hkind
        refine .take (by simp [hkind]) ((plainText_alike fuel _).weaken ?_)
        rintro ts _ ⟨rest, hrest, rfl⟩
        exact ⟨_, .more hkind hrest, String.append_assoc ..⟩
      · split
        · exact Alike.failHere _ s
        · exact Alike.expect (by simp) (fun t ht => .pure ⟨"", .stop ht, String.append_empty.symm⟩) s

theorem decoratorList_alike (fuel : Nat) : ∀ (rounds : Nat) (read : Decorators),
    Alike (fun ts all => ∃ ds, Separated Decorator ts ds ∧
        all = ds.foldl (fun read d => Decorators.put d.1 d.2 read) read)
      (decoratorList fuel rounds read) (decoratorList fuel rounds read)
  | 0, _ => .starve
  | rounds + 1, read => by
      refine .expect (by simp) fun name hname => ?_
      have hrest : ∀ text, Alike (fun vs all => ∀ us, Decorator us (name.lexeme, text) →
            ∃ ds, Separated Decorator (us ++ vs) ds ∧
              all = ds.foldl (fun read d => Decorators.put d.1 d.2 read) read)
          (do
            let more ← accept .comma
            if more then decoratorList fuel rounds (read.put name.lexeme text)
            else Parser.pure (read.put name.lexeme text))
          (do
            let more ← accept .comma
            if more then decoratorList fuel rounds (read.put name.lexeme text)
            else Parser.pure (read.put name.lexeme text)) := by
        intro text
        refine .accept (by simp) (fun comma hcomma => ?_) (.pure fun us hus => ?_)
        · refine (decoratorList_alike fuel rounds _).weaken ?_
          rintro ts _ ⟨ds, hds, rfl⟩ us hus
          exact ⟨_, .more hus hcomma hds, rfl⟩
        · rw [List.append_nil]
          exact ⟨_, .last hus, rfl⟩
      refine .accept (by simp) (fun equals hequals => ?_) ?_
      · refine .expect (by simp) fun quote hquote => (plainText_alike fuel "").bind fun text => ?_
        refine (hrest (some text)).weaken ?_
        rintro ts all hall us ⟨rest, hcontent, rfl⟩
        rw [String.empty_append] at hall
        exact hall (name :: equals :: quote :: us) (.text hname hequals hquote hcontent)
      · exact (hrest none).weaken fun ts all hall => hall [name] (.mark hname)

theorem decorators_alike (fuel : Nat) :
    Alike Remarks (decorators .strict fuel) (decorators .tolerant fuel) := by
  refine .accept (by simp) (fun lbracket hopen s => .look ?_) (.pure .none)
  have hclose : ∀ read, Alike (fun vs all => ∀ us, (∀ rbracket : Token,
        rbracket.kind = .rightBracket → Remarks (lbracket :: us ++ [rbracket]) read) →
          Remarks (lbracket :: (us ++ vs)) all)
      (do
        let _ ← closer .strict .rightBracket .unclosedDecorators
        Parser.pure read)
      (do
        let _ ← closer .tolerant .rightBracket .unclosedDecorators
        Parser.pure read) := fun read =>
    .closer (by simp) fun span => .pure fun t ht _ us hus => hus t ht
  dsimp only
  split
  · exact (hclose []).weaken (fun vs all hall => hall [] fun t ht => .empty hopen ht) s
  · refine (decoratorList_alike fuel fuel []).bind (fun read => (hclose read).weaken ?_) s
    rintro vs all hall us ⟨ds, hds, rfl⟩
    exact hall us fun t ht => .full hopen hds ht

theorem expression_ne_nil (hne : ∀ ts e, R ts e → ts ≠ []) {ts : List Token} {e : Expr}
    (h : Expression R ts e) : ts ≠ [] := by
  cases h with
  | operation he => exact hne _ _ he
  | _ => simp

theorem function_alike (ho : Alike R p q) (hne : ∀ ts e, R ts e → ts ≠ []) :
    Alike (Function R) (function .strict fuel p) (function .tolerant fuel q) := by
  intro s
  have hbody := body_alike (expression_alike ho) (fun _ _ => expression_ne_nil hne) .rightBrace fuel
  refine .front (.look ((decorators_alike fuel s).bind fun remarks => .expect (by simp)
    fun lbrace hopen => hbody.bind fun body => .closer (by simp) fun stop => .pure ?_))
  rintro rbrace hclose rfl us hus ts hremarks hfront
  have hstart : (ts.headD lbrace).span = s.peek.span := by
    rw [← hfront]
    cases ts <;> rfl
  rw [← hstart]
  simpa using Function.mk hremarks hopen hus hclose

/-- The parts of a string behind its opening quote. -/
theorem stringParts_alike (ho : Alike R p q) : ∀ (fuel : Nat) (pieces : Pieces),
    Alike (StringRest R pieces) (stringParts .strict p fuel pieces) (stringParts .tolerant q fuel pieces)
  | 0, _ => .starve
  | fuel + 1, pieces => by
      refine fun s => .look ?_
      split
      · rename_i hkind
        exact .take (by simp [hkind]) ((stringParts_alike ho fuel _).weaken
          fun _ _ hrest => .content hkind hrest)
      · rename_i hkind
        refine .take (by simp [hkind]) ((expression_alike ho).bind fun e =>
          .closer (by simp) fun _ => (stringParts_alike ho fuel _).weaken ?_)
        rintro vs r hrest rbrace hclose - us he
        exact .interpolation hkind he hclose hrest
      · rename_i hkind
        exact .take (by simp [hkind]) (.pure (.stop hkind))
      · exact .recover _ _ _

/-! ### Primaries, calls and fields

The readers of what operands are made of. -/

theorem primary_alike (ho : Alike R p q) (hne : ∀ ts e, R ts e → ts ≠ []) :
    Alike (Primary R) (primary .strict fuel p) (primary .tolerant fuel q) := by
  refine fun s => .look ?_
  dsimp only
  -- the next token decides, and it is the same for both
  split
  · rename_i hkind
    exact .take (by simp [State.kind, hkind]) (.pure (.name (.inl hkind)))
  · rename_i hkind
    exact .take (by simp [State.kind, hkind]) (.pure (.name (.inr hkind)))
  · rename_i hkind
    refine .take (by simp [State.kind, hkind]) ?_
    -- the token is a number for both or illegible for both
    split
    · rename_i value hvalue
      refine .pure ?_
      have hread := Primary.number (R := R) hkind
      rwa [hvalue] at hread
    · exact .fail _
  · rename_i hkind
    refine .take (by simp [State.kind, hkind]) ((stringParts_alike ho fuel _).bind fun r =>
      .pure fun ts hrest => ?_)
    rw [List.append_nil]
    exact .string hkind hrest
  · exact (function_alike ho hne s).weaken fun _ _ => .function
  · exact (function_alike ho hne s).weaken fun _ _ => .function
  · rename_i hkind
    refine .take (by simp [State.kind, hkind]) ((expression_alike ho).bind fun e =>
      .closer (by simp) fun _ => .pure ?_)
    rintro rparen hclose rfl ts he
    exact .bracket hkind he hclose
  -- what is no primary is reported by both, whatever stands in for it
  · exact .recover _ _ _

/-- The name of an argument is told from two tokens. -/
theorem atNamedArgument_spec {s : State} (h : s.atNamedArgument = true) :
    IsName s.peek ∧ s.advance.kind = .assign := by
  rw [State.atNamedArgument, Bool.and_eq_true] at h
  obtain ⟨hat, hassign⟩ := h
  have hname : IsName s.peek := by simpa [State.atName, State.kind, IsName] using hat
  obtain ⟨r, hrest, hadvance⟩ := State.rest_of_kind (s := s) hname.ne_eof
  refine ⟨hname, ?_⟩
  rw [hrest] at hassign
  rw [hadvance, State.kind, State.peek]
  cases r with
  | nil => cases hassign
  | cons t r => simpa using hassign

theorem argument_alike (ho : Alike R p q) : Alike (Passed R) (argument p) (argument q) := by
  refine fun s => .look ?_
  split
  · rename_i hnamed
    obtain ⟨hname, hassign⟩ := atNamedArgument_spec hnamed
    refine .next hname.ne_eof (.take (by simp [hassign]) (ho.bind fun value => .pure fun ts hvalue => ?_))
    rw [List.append_nil]
    exact .named hname hassign hvalue
  · exact ho.bind (fun value => .pure fun ts hvalue => by
      rw [List.append_nil]
      exact .positional hvalue) s

/-- Arguments with commas between them, and perhaps one behind them. -/
theorem argumentList_alike (ho : Alike R p q) : ∀ (fuel : Nat) (read : List (Argument Expr)),
    Alike (fun ts all => ∃ us vs args, ts = us ++ vs ∧ Separated (Passed R) us args ∧
        OptionalComma vs ∧ all = read.reverse ++ args) (argumentList p fuel read) (argumentList q fuel read)
  | 0, _ => .starve
  | fuel + 1, read => by
      refine (argument_alike ho).bind fun arg => .accept (by simp) (fun comma hcomma s => .look ?_)
        fun s => .look (.pure fun ts harg => ?_)
      · split
        · refine (argumentList_alike ho fuel _ s).weaken ?_
          rintro _ _ ⟨us, vs, args, rfl, hargs, hvs, rfl⟩ ts harg
          exact ⟨ts ++ comma :: us, vs, arg :: args, by simp, .more harg hcomma hargs, hvs, by simp⟩
        · exact .pure fun ts harg =>
            ⟨ts, [comma], [arg], rfl, .last harg, .inr ⟨comma, hcomma, rfl⟩, by simp⟩
      · exact ⟨ts, [], [arg], rfl, .last harg, .inl rfl, by simp⟩

/-- Where a function starts, one is read. -/
theorem trailing_alike (ho : Alike R p q) (hne : ∀ ts e, R ts e → ts ≠ []) :
    ∀ (rounds : Nat) (read : List Expr) (stop : Span) (s : State),
      AlikeAt (fun ts r => ∃ fs, Repeated (Function R) ts fs ∧ (s.startsFunction = true → ts ≠ []) ∧
          r = (read.reverse ++ fs, stopOf fs stop)) s
        (trailing .strict fuel p rounds read stop) (trailing .tolerant fuel q rounds read stop)
  | 0, _, _, s => Alike.starve s
  | rounds + 1, read, stop, s => by
      refine .look ?_
      split
      · refine (function_alike ho hne s).bind fun f s' => (trailing_alike ho hne rounds _ _ s').weaken ?_
        rintro us r ⟨fs, hfs, -, rfl⟩ ts hf
        refine ⟨f :: fs, .cons hf hfs, fun _ => ?_, by simp [stopOf]⟩
        exact List.append_ne_nil_of_left_ne_nil (ne_nil_of_headKind rfl hf.opens) us
      · rename_i hstarts
        exact .pure ⟨[], .nil, fun h => absurd h hstarts, by simp [stopOf]⟩

theorem arguments_alike (ho : Alike R p q) (hne : ∀ ts e, R ts e → ts ≠ []) {s : State}
    (hstarts : s.startsArguments = true) :
    AlikeAt (CallArgs R) s (arguments .strict fuel p) (arguments .tolerant fuel q) := by
  refine .front (.look ?_)
  split
  -- with parentheses, the functions behind the closing one belong to the call
  · rename_i hkind
    refine .take (by simp [hkind]) fun s' => .look ?_
    -- what is read behind the arguments is the same whether there are any
    have hclose : ∀ args, Alike (fun vs a => ∀ us, (∀ rparen : Token, rparen.kind = .rightParen →
          Parens R (s.peek :: us ++ [rparen]) (args, rparen.span)) → CallArgs R (s.peek :: (us ++ vs)) a)
        (do
          let stop ← closer .strict .rightParen .unclosedArguments
          let r ← trailing .strict fuel p fuel [] stop
          Parser.pure (⟨args, r.1, r.2⟩ : Arguments))
        (do
          let stop ← closer .tolerant .rightParen .unclosedArguments
          let r ← trailing .tolerant fuel q fuel [] stop
          Parser.pure (⟨args, r.1, r.2⟩ : Arguments)) := by
      refine fun args => .closer (by simp) fun stop s'' =>
        (trailing_alike ho hne fuel [] stop s'').bind fun r => .pure ?_
      rintro ts ⟨fs, hfs, -, rfl⟩ rparen hclose rfl us hus
      simpa using CallArgs.parens (hus rparen hclose) hfs
    dsimp only
    split
    · exact (hclose [] s').weaken fun vs a ha _ => ha [] fun t ht => .empty hkind ht
    · refine (argumentList_alike ho fuel [] s').bind fun args => (hclose args).weaken ?_
      rintro vs a ha _ ⟨us, ws, args, rfl, hargs, hws, rfl⟩ -
      refine ha (us ++ ws) fun t ht => ?_
      simpa using Parens.full hkind hargs hws ht
  -- without parentheses there is at least one function, since a token opens the arguments
  · rename_i hkind
    have hfunction : s.startsFunction = true := by
      simpa [State.startsArguments, State.startsFunction, hkind] using hstarts
    refine (trailing_alike ho hne fuel [] s.peek.span s).bind fun r => .pure ?_
    rintro ts ⟨fs, hfs, hts, rfl⟩ hfront
    rw [List.append_nil] at hfront ⊢
    obtain ⟨t, ts, rfl⟩ := List.exists_cons_of_ne_nil (hts hfunction)
    obtain rfl : t = s.peek := hfront
    exact .functions hfs

theorem callTail_alike (ho : Alike R p q) (hne : ∀ ts e, R ts e → ts ≠ []) :
    ∀ (rounds : Nat) (e : Expr), Alike (Calls R e) (callTail .strict fuel p rounds e)
      (callTail .tolerant fuel q rounds e)
  | 0, _ => .starve
  | rounds + 1, e => by
      refine fun s => .look ?_
      split
      · rename_i hstarts
        refine .front ((arguments_alike ho hne hstarts).bind fun a =>
          (callTail_alike ho hne rounds _).weaken ?_)
        rintro us e' hcalls ts ha hfront
        obtain ⟨t, ts, rfl⟩ := List.exists_cons_of_ne_nil (ne_nil_of_headKind rfl ha.opens)
        obtain rfl : t = s.peek := hfront
        exact .cons ha hcalls
      · exact .pure .nil

theorem fieldKey_alike (dot : Span) :
    Alike (fun ts r => ∃ t, ts = [t] ∧ KeyToken t r.1 ∧ r.2 = t.span) (fieldKey .strict dot)
      (fieldKey .tolerant dot) := by
  refine fun s => .look ?_
  dsimp only
  split
  · rename_i hkind
    exact .take (by simp [State.kind, hkind]) (.pure ⟨_, rfl, .name (.inl hkind), rfl⟩)
  · rename_i hkind
    exact .take (by simp [State.kind, hkind]) (.pure ⟨_, rfl, .name (.inr hkind), rfl⟩)
  · rename_i hkind
    refine .take (by simp [State.kind, hkind]) ?_
    split
    · rename_i n hn
      exact .pure ⟨_, rfl, .index hkind hn, rfl⟩
    · exact .fail _
  · exact .recover _ _ _

theorem accessTail_alike (ho : Alike R p q) (hne : ∀ ts e, R ts e → ts ≠ []) :
    ∀ (rounds : Nat) (e : Expr), Alike (Fields R e) (accessTail .strict fuel p rounds e)
      (accessTail .tolerant fuel q rounds e)
  | 0, _ => .starve
  | rounds + 1, e => by
      refine fun s => .look ?_
      split
      · rename_i hdot
        refine .take (by simp [hdot]) ((fieldKey_alike _).bind fun (key, keySpan) s' => .look ?_)
        split
        · rename_i hstarts
          refine (arguments_alike ho hne hstarts).bind fun a => (callTail_alike ho hne fuel _).bind
            fun called => (accessTail_alike ho hne rounds called).weaken ?_
          rintro vs e' hfields us hcalls ts ha _ ⟨t, rfl, hkey, rfl⟩
          simpa using Fields.send hdot hkey ha hcalls hfields
        · refine (accessTail_alike ho hne rounds _ s').weaken ?_
          rintro vs e' hfields _ ⟨t, rfl, hkey, rfl⟩
          exact .field hdot hkey hfields
      · exact .pure .nil

theorem access_alike (ho : Alike R p q) (hne : ∀ ts e, R ts e → ts ≠ []) :
    Alike (Access R) (access .strict fuel p) (access .tolerant fuel q) := by
  refine (primary_alike ho hne).bind fun e => (callTail_alike ho hne fuel e).bind fun called =>
    (accessTail_alike ho hne fuel called).weaken ?_
  intro vs e' hfields us hcalls ts hprimary
  rw [← List.append_assoc]
  exact .mk hprimary hcalls hfields

/-! ### Operations and programs

The induction on the fuel, and what follows for programs. -/

theorem operationTail_alike {P : Phrase Expr} (ho : Alike P p q) : ∀ (rounds : Nat) (lhs : Expr),
    Alike (fun ts e => ∃ rights, Repeated (Operator P) ts rights ∧ e = rights.foldl applied lhs)
      (operationTail p rounds lhs) (operationTail q rounds lhs)
  | 0, _ => .starve
  | rounds + 1, lhs => by
      refine fun s => .look ?_
      split
      · rename_i hname
        have hoperator : IsName s.peek := by simpa [State.atName, State.kind, IsName] using hname
        refine .take hoperator.ne_eof (ho.bind fun rhs =>
          (operationTail_alike ho rounds _).weaken ?_)
        rintro us _ ⟨rights, hrights, rfl⟩ ts hrhs
        exact ⟨(s.peek, rhs) :: rights, .cons (.mk hoperator hrhs) hrights, rfl⟩
      · exact .pure ⟨[], .nil, rfl⟩

theorem chain_alike {P : Phrase Expr} (ho : Alike P p q) (rounds : Nat) :
    Alike (Chain P) (p >>= operationTail p rounds) (q >>= operationTail q rounds) := by
  refine ho.bind fun first => (operationTail_alike ho rounds first).weaken ?_
  rintro us _ ⟨rights, hrights, rfl⟩ ts hfirst
  exact .mk hfirst hrights

end

theorem operation_alike : ∀ fuel : Nat,
    Alike Operation (operation .strict fuel) (operation .tolerant fuel)
  | 0 => .starve
  | fuel + 1 =>
      (chain_alike (access_alike (operation_alike fuel) fun _ _ => Operation.ne_nil) fuel).weaken
        fun _ _ => .mk

theorem program_alike (fuel : Nat) (tokens : List Token) :
    AlikeAt (Body (Expression Operation)) (.start tokens) (program .strict fuel)
      (program .tolerant fuel) := by
  have hne : ∀ ts e, Expression Operation ts e → ts ≠ [] :=
    fun _ _ => expression_ne_nil fun _ _ => Operation.ne_nil
  exact body_alike (expression_alike (operation_alike fuel)) hne .eof fuel _

end Parser

/-! ### Texts

Lexing does not depend on the reader. -/

open Protean.Parser

/-- What reading a text gives, by the program that is read to its end. -/
theorem Expr.parse_done (policy : Policy) (text : String) : ∃ es s,
    program policy ((Token.ofText text).tokens.length + 2) (.start (Token.ofText text).tokens) =
      .done es s ∧
    parse policy text = ⟨if policy = .tolerant || ((Token.ofText text).errors.isEmpty &&
      s.errors.reverse.isEmpty) then some es else none, (Token.ofText text).errors,
        s.errors.reverse⟩ := by
  obtain ⟨es, s, hread⟩ := program_done policy (Token.ofText text).tokens
  exact ⟨es, s, hread, by simp only [parse, hread]⟩

/-- **Strict and tolerant reading agree.**  A tolerant reader always gives a program.  Both find the
same errors in the characters, and if one finds an error in the tokens so does the other, and the same
one first.  Where there are no errors they give the same program, down to the spans. -/
theorem strict_and_tolerant_agree (text : String) :
    let strict := Expr.parse .strict text
    let tolerant := Expr.parse .tolerant text
    tolerant.exprs.isSome = true ∧ strict.lexical = tolerant.lexical ∧
      (strict.grammar = [] ↔ tolerant.grammar = []) ∧
      strict.grammar.head? = tolerant.grammar.head? ∧
      (strict.lexical = [] → strict.grammar = [] →
        ∃ es, strict.exprs = some es ∧ tolerant.exprs = some es) := by
  intro strict tolerant
  obtain ⟨es, s, hstrict, hs⟩ := Expr.parse_done .strict text
  obtain ⟨es', s', htolerant, hs'⟩ := Expr.parse_done .tolerant text
  have hexprs : tolerant.exprs = some es' := by simp [tolerant, hs']
  refine ⟨by rw [hexprs]; rfl, by simp only [strict, tolerant, hs, hs'], ?_⟩
  have hgrammar : strict.grammar = s.errors.reverse ∧ tolerant.grammar = s'.errors.reverse :=
    ⟨by simp only [strict, hs], by simp only [tolerant, hs']⟩
  rw [hgrammar.1, hgrammar.2]
  rcases program_alike _ (Token.ofText text).tokens with
    ⟨ts, a, s'', hp, hq, hpass, -⟩ | ⟨e, hp, hq⟩
  · -- Without complaint the two programs are one.
    rw [hstrict] at hp
    rw [htolerant] at hq
    cases hp
    cases hq
    have hnone : s.errors = [] := hpass.errors
    refine ⟨Iff.rfl, rfl, fun hlexical _ => ⟨es, ?_, hexprs⟩⟩
    have hlexed : (Token.ofText text).errors = [] := by simpa only [strict, hs] using hlexical
    simp [strict, hs, hlexed, hnone]
  -- otherwise both have noted the same error first, whatever came later
  · rw [hstrict] at hp
    rw [htolerant] at hq
    obtain ⟨later, hlater⟩ := hp
    obtain ⟨later', hlater'⟩ := hq
    have herrors : s.errors.reverse = e :: later.reverse := by simp [← hlater, State.start]
    have herrors' : s'.errors.reverse = e :: later'.reverse := by simp [← hlater', State.start]
    rw [herrors, herrors']
    exact ⟨by simp, rfl, fun _ hnone => absurd hnone (List.cons_ne_nil _ _)⟩

/-- A function with a call and an interpolated string in it. -/
theorem strict_and_tolerant_agree_interpolation :
    let strict := Expr.parse .strict "g = \x7b x.f(k = \"s$\x7by + z\x7d\") \x7d"
    let tolerant := Expr.parse .tolerant "g = \x7b x.f(k = \"s$\x7by + z\x7d\") \x7d"
    strict.lexical = [] ∧ strict.grammar = [] ∧
      ∃ es, strict.exprs = some es ∧ tolerant.exprs = some es := by
  have hlexical : (Expr.parse .strict "g = \x7b x.f(k = \"s$\x7by + z\x7d\") \x7d").lexical = [] :=
    rfl
  have hgrammar : (Expr.parse .strict "g = \x7b x.f(k = \"s$\x7by + z\x7d\") \x7d").grammar = [] :=
    rfl
  exact ⟨hlexical, hgrammar, (strict_and_tolerant_agree _).2.2.2.2 hlexical hgrammar⟩

end Protean
