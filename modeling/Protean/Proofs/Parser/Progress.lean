import Protean.Parser.Program

/-!
# Proofs — Parser — no reader starves

Every nesting and every round of a loop passes a token, so a reader that has fuel for more tokens than
are left answers before its fuel runs out.  `Parser.Ends n d p` says so of `p` where fewer than `n`
tokens are left, and also that `p` passes at least `d` of them when it succeeds, which is what the
readers that follow live on.  `Parser.Round` says what one round of a loop comes to, and
`Ends.of_rounds` what follows for the loop.

**A program is read to its end**, by strict and by tolerant readers: `program_done`.

* `State.Later`: a state that is reached by taking tokens and noting errors.
* `Parser.EndsAt`, `Parser.Ends`: the relation, at a state and at all with so many tokens left.
* `assignment_ends` … `operation_ends`: the readers of the language, one lemma for each, and two for each loop: what one
  round comes to, and that the loop ends.
-/

namespace Protean

namespace Parser

variable {α β : Type}

/-! ### Passing tokens

How a state is reached from an earlier one: by taking tokens and by noting errors. -/

/-- The end of the text is still ahead of `s`. -/
def State.HasEnd (s : State) : Prop := ∃ t ∈ s.rest, t.kind = .eof

/-- `s'` is what passing some tokens of `s`, but never the end, leads to. -/
structure State.Later (s s' : State) : Prop where
  rest : s'.rest <:+ s.rest
  consumed : s'.consumed + s'.rest.length = s.consumed + s.rest.length
  ends : s.HasEnd → s'.HasEnd

namespace State

variable {s : State}

/-- The next token is told from the tokens that are left. -/
theorem kind_eq_of_rest {s' : State} (h : s'.rest = s.rest) : s'.kind = s.kind := by
  rw [kind, kind, peek, peek, h]
  cases s.rest <;> rfl

/-- Unless the text ends, there is a next token, and taking it leaves the others. -/
theorem rest_of_kind (h : s.kind ≠ .eof) : ∃ r, s.rest = s.peek :: r ∧
    s.advance = ⟨r, s.consumed + 1, s.peek.span.stop, s.errors⟩ := by
  rw [kind, peek] at h
  rw [advance, peek]
  cases hrest : s.rest with
  | nil =>
    rw [hrest] at h
    exact absurd rfl h
  | cons t r =>
    rw [hrest] at h
    exact ⟨r, rfl, if_neg h⟩

theorem length_advance (h : s.kind ≠ .eof) : s.advance.rest.length + 1 = s.rest.length := by
  obtain ⟨r, hrest, hadvance⟩ := rest_of_kind h
  rw [hadvance, hrest]
  rfl

namespace Later

theorem refl (s : State) : s.Later s := ⟨List.suffix_refl _, rfl, id⟩

theorem trans {s' s'' : State} (h : s.Later s') (h' : s'.Later s'') : s.Later s'' :=
  ⟨h'.rest.trans h.rest, h'.consumed.trans h.consumed, h'.ends ∘ h.ends⟩

theorem length_le {s' : State} (h : s.Later s') : s'.rest.length ≤ s.rest.length := h.rest.length_le

theorem advance (s : State) : s.Later s.advance := by
  by_cases hkind : s.kind = .eof
  · have hstay : s.advance = s := by
      rw [kind, peek] at hkind
      rw [State.advance]
      split
      · rfl
      · rename_i t r hrest
        rw [hrest] at hkind
        exact if_pos hkind
    rw [hstay]
    exact refl s
  · obtain ⟨r, hrest, hadvance⟩ := rest_of_kind hkind
    rw [hadvance]
    refine ⟨hrest ▸ List.suffix_cons _ r, ?_, ?_⟩
    · rw [hrest, List.length_cons]
      exact (Nat.add_right_comm _ _ _).trans (Nat.add_assoc _ _ _)
    · rintro ⟨t, ht, heof⟩
      rw [hrest] at ht
      -- The token that is passed is not the end.
      rcases List.mem_cons.mp ht with rfl | ht
      · exact absurd heof hkind
      · exact ⟨t, ht, heof⟩

theorem note (s : State) (e : GrammarError) : s.Later (s.note e) := ⟨List.suffix_refl _, rfl, id⟩

theorem advanceBy (n : Nat) (s : State) : s.Later (s.advanceBy n) := by
  induction n generalizing s with
  | zero => exact refl s
  | succ n ih => exact (advance s).trans (ih s.advance)

theorem skipSeparatorsIn (tokens : List Token) (s : State) :
    s.Later (s.skipSeparatorsIn tokens) := by
  induction tokens generalizing s with
  | nil => exact refl s
  | cons t r ih =>
    rw [State.skipSeparatorsIn]
    split
    · exact (advance s).trans (ih s.advance)
    · exact (advance s).trans (ih s.advance)
    · exact refl s

theorem synchronizeIn (depth : Nat) (tokens : List Token) (s : State) :
    s.Later (s.synchronizeIn depth tokens) := by
  induction tokens generalizing s depth with
  | nil => exact refl s
  | cons t r ih =>
    rw [State.synchronizeIn]
    split
    · exact refl s
    all_goals first
      | exact (advance s).trans (ih _ s.advance)
      | split
        · exact refl s
        · exact (advance s).trans (ih _ s.advance)

theorem settle (closer : TokenKind) (s : State) : s.Later (settle closer s) := by
  rw [Parser.settle]
  split
  · exact refl s
  · exact (note s _).trans (synchronizeIn 0 _ _)

/-- A statement that passed nothing has the token in front of it dropped. -/
theorem nextStatement {closer : TokenKind} {after : State} (h : s.Later after)
    (hs : s.atEnd closer = false) :
    s.Later (nextStatement closer s after) ∧
      (nextStatement closer s after).rest.length < s.rest.length := by
  rw [Parser.nextStatement]
  by_cases hcount : after.consumed = s.consumed
  · have hlength : after.rest.length = s.rest.length := by
      have hsum := h.consumed
      omega
    have hkind : after.kind = s.kind := kind_eq_of_rest (h.rest.eq_of_length hlength)
    have hend : after.atEnd closer = false := by rwa [atEnd, hkind]
    rw [if_pos (by simp [hcount, hend])]
    have hmoved : after.advance.rest.length + 1 = after.rest.length := by
      refine length_advance fun heof => ?_
      rw [atEnd, heof] at hend
      simp at hend
    exact ⟨h.trans (advance after), by omega⟩
  · rw [if_neg (by simp [hcount])]
    have hsum := h.consumed
    have hle := h.length_le
    exact ⟨h, by omega⟩

end Later

end State

/-! ### Rules

A rule for every combinator of readers.  What has been passed by the first of two readers is fuel that the
second one need not have. -/

/-- From `s`, `p` does not starve, and it passes at least `d` tokens when it succeeds. -/
def EndsAt (s : State) (d : Nat) (p : Parser α) : Prop :=
  match p s with
  | .done _ s' => s.Later s' ∧ s'.rest.length + d ≤ s.rest.length
  | .failed _ s' => s.Later s'
  | .starved => False

/-- In front of fewer than `n` tokens, `p` does not starve, and it passes at least `d` of them when it
succeeds. -/
def Ends (n d : Nat) (p : Parser α) : Prop := ∀ s : State, s.rest.length < n → EndsAt s d p

namespace EndsAt

variable {n d k : Nat} {s s' : State} {p : Parser α}

/-- A reader that goes on from a state that is reached from `s` over `k` tokens. -/
theorem of_later {q : Parser α} (h : EndsAt s' (d - k) q) (hq : p s = q s') (hlater : s.Later s')
    (hd : s'.rest.length + k ≤ s.rest.length) : EndsAt s d p := by
  rw [EndsAt] at h ⊢
  rw [hq]
  cases hreply : q s' with
  | done a s'' =>
    rw [hreply] at h
    exact ⟨hlater.trans h.1, by have hle := h.2; omega⟩
  | failed e s'' =>
    rw [hreply] at h
    exact hlater.trans h
  | starved => rwa [hreply] at h

/-- A reader that passes tokens passes at least none. -/
theorem weaken (h : EndsAt s d p) : EndsAt s 0 p := by
  rw [EndsAt] at h ⊢
  cases hreply : p s with
  | done a s' =>
    rw [hreply] at h
    exact ⟨h.1, h.1.length_le⟩
  | failed e s' => rwa [hreply] at h
  | starved => rwa [hreply] at h

/-- The next token is passed, unless the text ends. -/
theorem next (hkind : s.kind ≠ .eof) : EndsAt s 1 Parser.next :=
  ⟨.advance s, Nat.le_of_eq (State.length_advance hkind)⟩

/-- A reader that passes the token it has looked at. -/
theorem take {f : Token → Parser β} (hs : s.rest.length < n) (hkind : s.kind ≠ .eof)
    (hf : Ends (n - 1) (d - 1) (f s.peek)) : EndsAt s d (Parser.next >>= f) := by
  have hlength := State.length_advance hkind
  exact (hf s.advance (by omega)).of_later (k := 1) rfl (.advance s) (by omega)

/-- A reader that follows another one need not pass the tokens that this has passed. -/
theorem bind {f : α → Parser β} (hp : EndsAt s k p) (hs : s.rest.length < n)
    (hf : ∀ a, Ends (n - k) (d - k) (f a)) : EndsAt s d (p >>= f) := by
  have hbind : (p >>= f) s = Parser.bind p f s := rfl
  rw [EndsAt] at hp
  rw [Parser.bind] at hbind
  cases hreply : p s with
  | done a s' =>
    rw [hreply] at hp hbind
    exact (hf a s' (by have hle := hp.2; omega)).of_later hbind hp.1 hp.2
  | failed e s' =>
    rw [hreply] at hp hbind
    rwa [EndsAt, hbind]
  | starved =>
    rw [hreply] at hp
    exact hp.elim

/-- A reader that goes by the state it starts from. -/
theorem look {f : State → Parser β} (h : EndsAt s d (f s)) : EndsAt s d (Parser.state >>= f) := h

end EndsAt

namespace Ends

variable {n m d k : Nat} {policy : Policy} {p : Parser α} {f : α → Parser β}

/-- A reader that ends with so many tokens left ends with fewer. -/
theorem mono (h : Ends n d p) (hm : m ≤ n) : Ends m d p :=
  fun s hs => h s (Nat.lt_of_lt_of_le hs hm)

/-- A reader ends at a state if it ends with as many tokens as are left there. -/
theorem here {s : State} (h : Ends (s.rest.length + 1) d p) : EndsAt s d p :=
  h s (Nat.lt_succ_self _)

theorem pure (a : α) : Ends n 0 (Parser.pure a) := fun s _ => ⟨.refl s, Nat.le_refl _⟩

/-- The second reader starts with the tokens that the first one has left, and only has to pass the others. -/
theorem bind (hp : Ends n k p) (hf : ∀ a, Ends (n - k) (d - k) (f a)) : Ends n d (p >>= f) :=
  fun s hs => (hp s hs).bind hs hf

/-- At the end of the text nothing is passed. -/
theorem next : Ends n 0 Parser.next := fun s _ =>
  ⟨.advance s, (State.Later.advance s).length_le⟩

theorem pass (k : Nat) : Ends n 0 (Parser.pass k) := fun s _ =>
  ⟨.advanceBy k s, (State.Later.advanceBy k s).length_le⟩

/-- An error ends everything, so any number of tokens may be asked for. -/
theorem fail (e : GrammarError) : Ends n d (Parser.fail e : Parser α) := fun s _ => .refl s

theorem failHere (cause : GrammarCause) : Ends n d (Parser.failHere cause : Parser α) :=
  fun s _ => .refl s

/-- Something is stood in, or there is an error. -/
theorem recover (e : GrammarError) (standIn : α) : Ends n 0 (Parser.recover policy e standIn) := by
  intro s _
  cases policy with
  | strict => exact State.Later.refl s
  | tolerant => exact ⟨.note s e, Nat.le_refl _⟩

/-- A token is taken, or there is an error. -/
theorem expected (kind : TokenKind) (cause : GrammarCause) :
    Ends n 0 (Parser.expect kind cause) := by
  intro s _
  rw [EndsAt, Parser.expect]
  by_cases heq : s.kind = kind
  · rw [if_pos heq]
    exact ⟨.advance s, (State.Later.advance s).length_le⟩
  · rw [if_neg heq]
    exact State.Later.refl s

/-- If it is not the end of the text, it is passed. -/
theorem expect {kind : TokenKind} (hkind : kind ≠ .eof) (cause : GrammarCause) :
    Ends n 1 (Parser.expect kind cause) := by
  intro s _
  rw [EndsAt, Parser.expect]
  by_cases heq : s.kind = kind
  · rw [if_pos heq]
    exact ⟨.advance s, Nat.le_of_eq (State.length_advance (heq ▸ hkind))⟩
  · rw [if_neg heq]
    exact State.Later.refl s

/-- A token is taken if it is there. -/
theorem accepted (kind : TokenKind) : Ends n 0 (Parser.accept kind) := by
  intro s _
  rw [EndsAt, Parser.accept]
  by_cases heq : s.kind = kind
  · rw [if_pos heq]
    exact ⟨.advance s, (State.Later.advance s).length_le⟩
  · rw [if_neg heq]
    exact ⟨.refl s, Nat.le_refl _⟩

/-- Only a token that is there is passed. -/
theorem accept {kind : TokenKind} (hkind : kind ≠ .eof) {f : Bool → Parser β}
    (ht : Ends (n - 1) (d - 1) (f true)) (hf : Ends n d (f false)) :
    Ends n d (Parser.accept kind >>= f) := by
  intro s hs
  have hbind : (Parser.accept kind >>= f) s = Parser.bind (Parser.accept kind) f s := rfl
  rw [Parser.bind, Parser.accept] at hbind
  by_cases heq : s.kind = kind
  · rw [if_pos heq] at hbind
    exact (EndsAt.take hs (heq ▸ hkind) (f := fun _ => f true) ht).of_later (k := 0) hbind
      (.refl s) (Nat.le_refl _)
  · rw [if_neg heq] at hbind
    exact (hf s hs).of_later (k := 0) hbind (.refl s) (Nat.le_refl _)

/-- A closing delimiter is taken, or something is stood in. -/
theorem closer (kind : TokenKind) (cause : GrammarCause) :
    Ends n 0 (Parser.closer policy kind cause) := by
  intro s hs
  rw [EndsAt, Parser.closer]
  by_cases heq : s.kind = kind
  · rw [if_pos heq]
    exact ⟨.advance s, (State.Later.advance s).length_le⟩
  · rw [if_neg heq]
    exact recover _ _ s hs

end Ends

/-! ### Rounds of loops

One round of a loop ends it, or passes a token and goes on. -/

/-- What a round of `loop` that began at `start` has still to do at `s`: with fuel for `rounds` more
rounds it is `p rounds`.  It answers, or goes on with the next round behind a token more, and the fuel
for the rounds to come has no part in that. -/
inductive Round {γ : Type} (loop : Nat → γ → Parser β) (start s : State) (p : Nat → Parser β) : Prop
  | answer {q : Parser β} (hends : EndsAt start 0 q) (heq : ∀ rounds, p rounds s = q start)
  | again {read : γ} {s' : State} (hlater : start.Later s')
      (hlt : s'.rest.length < start.rest.length) (heq : ∀ rounds, p rounds s = loop rounds read s')

namespace Round

variable {γ : Type} {loop : Nat → γ → Parser β} {start s s' : State} {p q : Nat → Parser β}
  {k : Nat}

/-- A round that is the same as another one from here on. -/
theorem of_eq (h : Round loop start s' q) (heq : ∀ rounds, p rounds s = q rounds s') :
    Round loop start s p := by
  cases h with
  | answer hends heq' => exact .answer hends fun rounds => (heq rounds).trans (heq' rounds)
  | again hlater hlt heq' => exact .again hlater hlt fun rounds => (heq rounds).trans (heq' rounds)

/-- A round that ends without another one. -/
theorem last {q : Parser β} (hlater : start.Later s) (h : EndsAt s 0 q) :
    Round loop start s fun _ => q :=
  .answer (q := fun _ => q s) (h.of_later (k := 0) rfl hlater hlater.length_le) fun _ => rfl

/-- A round that goes on with the next one. -/
theorem goOn (read : γ) (hlater : start.Later s) (hlt : s.rest.length < start.rest.length) :
    Round loop start s fun rounds => loop rounds read :=
  .again hlater hlt fun _ => rfl

theorem look {f : Nat → State → Parser β} (h : Round loop start s fun rounds => f rounds s) :
    Round loop start s fun rounds => Parser.state >>= f rounds :=
  h.of_eq fun _ => rfl

/-- A round that goes one of two ways. -/
theorem split {c : Prop} [Decidable c] (ht : c → Round loop start s p)
    (he : ¬c → Round loop start s q) :
    Round loop start s fun rounds => if c then p rounds else q rounds := by
  by_cases hc : c
  · exact (ht hc).of_eq fun _ => by rw [if_pos hc]
  · exact (he hc).of_eq fun _ => by rw [if_neg hc]

/-- A round in which a token is passed only if it is there. -/
theorem accept {kind : TokenKind} (hkind : kind ≠ .eof) {f : Nat → Bool → Parser β}
    (hlater : start.Later s)
    (ht : ∀ s', start.Later s' → s'.rest.length + 1 ≤ s.rest.length →
      Round loop start s' fun rounds => f rounds true)
    (hf : Round loop start s fun rounds => f rounds false) :
    Round loop start s fun rounds => Parser.accept kind >>= f rounds := by
  have hbind : ∀ rounds, (Parser.accept kind >>= f rounds) s =
      Parser.bind (Parser.accept kind) (f rounds) s := fun _ => rfl
  simp only [Parser.bind, Parser.accept] at hbind
  by_cases heq : s.kind = kind
  · rw [if_pos heq] at hbind
    exact (ht s.advance (hlater.trans (.advance s))
      (Nat.le_of_eq (State.length_advance (heq ▸ hkind)))).of_eq hbind
  · rw [if_neg heq] at hbind
    exact hf.of_eq hbind

/-- What follows a reader within a round. -/
theorem bind {r : Parser α} {f : Nat → α → Parser β} (hlater : start.Later s) (hr : EndsAt s k r)
    (hf : ∀ a s', start.Later s' → s'.rest.length + k ≤ s.rest.length →
      Round loop start s' fun rounds => f rounds a) :
    Round loop start s fun rounds => r >>= f rounds := by
  have hbind : ∀ rounds, (r >>= f rounds) s = Parser.bind r (f rounds) s := fun _ => rfl
  rw [EndsAt] at hr
  simp only [Parser.bind] at hbind
  cases hreply : r s with
  | done a s' =>
    rw [hreply] at hr hbind
    exact (hf a s' (hlater.trans hr.1) hr.2).of_eq hbind
  | failed e s' =>
    rw [hreply] at hr hbind
    exact .answer (q := fun _ => .failed e s') (hlater.trans hr) hbind
  | starved =>
    rw [hreply] at hr
    exact hr.elim

end Round

/-- Rounds that pass a token each come to an end before the tokens do. -/
theorem Ends.of_rounds {γ : Type} {loop : Nat → γ → Parser β} {n : Nat}
    (hround : ∀ read s, s.rest.length < n →
      Round loop s s fun rounds => loop (rounds + 1) read) :
    ∀ (rounds : Nat) {m : Nat} (read : γ), m ≤ n → m ≤ rounds → Ends m 0 (loop rounds read)
  | 0, m, read, _, hrounds => fun s hs => by omega
  | rounds + 1, m, read, hn, hrounds => by
      intro s hs
      cases hround read s (Nat.lt_of_lt_of_le hs hn) with
      | answer hends heq =>
        exact hends.of_later (k := 0) (heq rounds) (.refl s) (Nat.le_refl _)
      | again hlater hlt heq =>
        exact (Ends.of_rounds hround rounds (m := m - 1) _ (by omega) (by omega) _
          (by omega)).of_later (k := 0) (heq rounds) hlater (Nat.le_of_lt hlt)

/-! ### Readers

Each reader of the language, from the innermost to whole programs. -/

section
variable {policy : Policy} {operand : Parser Expr} {n m d fuel rounds : Nat}

/-- An assignment takes no more tokens than its parts. -/
theorem assignment_ends (lhs value : Expr) (equals : Span) :
    Ends n 0 (assignment policy lhs value equals) := by
  unfold assignment
  split
  · exact .pure _
  · exact .pure _
  · exact .recover _ _

/-- The names of a destructuring assignment are known to be there. -/
theorem destructuring_ends (ho : Ends n 0 operand) (names : List String) :
    Ends n 0 (destructuring operand names) :=
  Ends.next.bind fun _ => (Ends.pass _).bind fun _ => Ends.next.bind fun _ =>
    ho.bind fun _ => .pure _

theorem expression_ends (ho : Ends n 0 operand) : Ends n 0 (expression policy operand) := by
  intro s hs
  refine .look ?_
  split
  · exact destructuring_ends ho _ s hs
  · refine ho.bind (fun lhs s hs => .look ?_) s hs
    split
    · exact Ends.next.bind (fun _ => ho.bind fun _ => assignment_ends _ _ _) s hs
    · exact Ends.pure _ s hs

theorem block_succ {closer : TokenKind} {statement : Parser Expr} {read : List Expr} (s : State) :
    block closer statement (rounds + 1) read s =
      if s.skipSeparators.atEnd closer then .done read.reverse s.skipSeparators
      else
        match statement s.skipSeparators with
        | .done e s' => block closer statement rounds (e :: read)
            (nextStatement closer s.skipSeparators (settle closer s'))
        | .failed e s' => block closer statement rounds read
            (nextStatement closer s.skipSeparators (s'.note e).synchronize)
        | .starved => .starved := rfl

/-- One round of the loop over statements ends it or passes a token, since what is no statement is skipped. -/
theorem block_round {statement : Parser Expr} (hst : Ends n 0 statement) (closer : TokenKind)
    (read : List Expr) (s : State) (hs : s.rest.length < n) :
    Round (block closer statement) s s fun rounds => block closer statement (rounds + 1) read := by
  have hskip : s.Later s.skipSeparators := .skipSeparatorsIn s.rest s
  have hlength := hskip.length_le
  have hreply := hst s.skipSeparators (by omega)
  -- Whatever the statement replied, the next round starts behind a token more.
  have hround : ∀ after read', s.skipSeparators.atEnd closer = false →
      s.skipSeparators.Later after →
      (∀ rounds, block closer statement (rounds + 1) read s = block closer statement rounds read'
        (nextStatement closer s.skipSeparators after)) →
      Round (block closer statement) s s fun rounds =>
        block closer statement (rounds + 1) read := by
    intro after read' hend hafter heq
    obtain ⟨hnext, hlt⟩ := hafter.nextStatement hend
    exact .again (hskip.trans hnext) (by omega) heq
  rw [EndsAt] at hreply
  by_cases hend : s.skipSeparators.atEnd closer = true
  · refine .answer (q := fun _ => .done read.reverse s.skipSeparators) ⟨hskip, hlength⟩ ?_
    intro rounds
    rw [block_succ, if_pos hend]
  rw [Bool.not_eq_true] at hend
  cases hread : statement s.skipSeparators with
  | done e s' =>
    rw [hread] at hreply
    refine hround _ (e :: read) hend (hreply.1.trans (.settle closer s')) fun rounds => ?_
    rw [block_succ, hend, if_neg Bool.false_ne_true, hread]
  | failed e s' =>
    rw [hread] at hreply
    refine hround (s'.note e).synchronize read hend
      ((hreply.trans (.note s' e)).trans (.synchronizeIn 0 _ _)) fun rounds => ?_
    rw [block_succ, hend, if_neg Bool.false_ne_true, hread]
  | starved =>
    rw [hread] at hreply
    exact hreply.elim

theorem block_ends {statement : Parser Expr} (hst : Ends n 0 statement) (closer : TokenKind) :
    ∀ (fuel : Nat) {m : Nat} (read : List Expr), m ≤ n → m ≤ fuel →
      Ends m 0 (block closer statement fuel read) :=
  .of_rounds (block_round hst closer)

/-- A block takes note of the errors of its statements and does not fail itself. -/
theorem block_ne_failed (closer : TokenKind) (statement : Parser Expr) :
    ∀ (fuel : Nat) (read : List Expr) (s : State) (e : GrammarError) (s' : State),
      block closer statement fuel read s ≠ .failed e s'
  | 0, _, _, _, _ => nofun
  | fuel + 1, read, s, e, s' => by
      rw [block_succ]
      split
      · nofun
      · split
        · exact block_ne_failed closer statement fuel _ _ e s'
        · exact block_ne_failed closer statement fuel _ _ e s'
        · nofun

/-- A block is read up to its closer or to the end. -/
theorem block_atEnd {p : Parser Expr} {closer : TokenKind} {es : List Expr} {s' : State} :
    ∀ (rounds : Nat) (read : List Expr) (s : State),
      block closer p rounds read s = .done es s' → s'.atEnd closer = true
  | 0, _, _, h => by cases h
  | rounds + 1, read, s, h => by
      rw [block_succ] at h
      split at h
      · rename_i hend
        cases h
        exact hend
      · split at h
        · exact block_atEnd rounds _ _ h
        · exact block_atEnd rounds _ _ h
        · cases h

/-- One round of the loop over the text of a decorator. -/
theorem plainText_round (text : String) (s : State) :
    Round plainText s s fun rounds => plainText (rounds + 1) text := by
  have hafter := State.Later.refl s
  refine .look (.split (fun hkind => ?_) fun _ => .last hafter ?_)
  · exact .bind hafter (.next (by simp [hkind])) fun _ _ hlater hlt => .goOn _ hlater (by omega)
  · split
    · exact (Ends.failHere _).here
    · exact ((Ends.expect (by simp) _).bind fun _ => .pure _).here

theorem plainText_ends (fuel : Nat) {m : Nat} (text : String) (hfuel : m ≤ fuel) :
    Ends m 0 (plainText fuel text) :=
  .of_rounds (n := m) (fun text s _ => plainText_round text s) fuel text (Nat.le_refl m) hfuel

theorem decoratorList_round (read : Decorators) (s : State) (hs : s.rest.length < fuel) :
    Round (decoratorList fuel) s s fun rounds => decoratorList fuel (rounds + 1) read := by
  refine .bind (.refl s) (Ends.expect (by simp) _ s hs) fun name s₁ hlater₁ hlt => ?_
  have hmore : ∀ text s₂, s.Later s₂ → s₂.rest.length < s.rest.length →
      Round (decoratorList fuel) s s₂ (fun rounds => do
        let more ← accept .comma
        if more then decoratorList fuel rounds (read.put name.lexeme text)
        else Parser.pure (read.put name.lexeme text)) := by
    intro text s₂ hlater₂ hlt₂
    refine .bind hlater₂ (Ends.accepted _).here fun more s₃ hlater₃ hle => ?_
    exact .split (fun _ => .goOn _ hlater₃ (by omega)) fun _ =>
      .last hlater₃ (Ends.pure _).here
  refine .bind hlater₁ (Ends.accepted _).here fun valued s₂ hlater₂ hle => ?_
  refine .split (fun _ => ?_) fun _ => hmore none s₂ hlater₂ (by omega)
  refine .bind hlater₂ (Ends.expect (by simp) _).here fun _ s₃ hlater₃ hle₃ => ?_
  refine .bind hlater₃ (plainText_ends fuel _ (Nat.le_refl fuel) s₃ (by omega))
    fun text s₄ hlater₄ hle₄ => hmore (some text) s₄ hlater₄ (by omega)

theorem decoratorList_ends : ∀ (rounds : Nat) {m : Nat} (read : Decorators), m ≤ fuel → m ≤ rounds →
    Ends m 0 (decoratorList fuel rounds read) :=
  .of_rounds decoratorList_round

theorem decorators_ends (hfuel : m ≤ fuel) : Ends m 0 (decorators policy fuel) := by
  refine .accept (by simp) (fun s hs => .look ?_) (.pure _)
  have hclose : ∀ read : Decorators, Ends (m - 1) 0 (do
      let _ ← closer policy .rightBracket .unclosedDecorators
      Parser.pure read) := fun read => (Ends.closer _ _).bind fun _ => .pure _
  dsimp only
  split
  · exact (Ends.pure _).bind hclose s hs
  · exact (decoratorList_ends fuel (m := m - 1) _ (by omega) (by omega)).bind hclose s hs

/-- A function passes at least its brace, so its body is read with less fuel. -/
theorem function_ends (ho : Ends n 0 operand) (hn : m ≤ n + 1) (hfuel : m ≤ fuel) :
    Ends m 1 (function policy fuel operand) := fun s hs =>
  .look <| (decorators_ends hfuel).bind (fun _ => (Ends.expect (by simp) _).bind fun _ =>
    (block_ends (expression_ends ho) _ fuel _ (by omega) (by omega)).bind fun _ =>
      (Ends.closer _ _).bind fun _ => .pure _) s hs

/-- One round of the loop over the parts of a string. -/
theorem stringParts_round (ho : Ends n 0 operand) (p : Pieces) (s : State)
    (hs : s.rest.length < n + 1) :
    Round (stringParts policy operand) s s fun rounds =>
      stringParts policy operand (rounds + 1) p := by
  have hafter := State.Later.refl s
  refine .look ?_
  by_cases hcontent : s.kind = .stringContent
  · simp only [hcontent]
    exact .bind hafter (.next (by simp [hcontent])) fun _ _ hlater hlt => .goOn _ hlater (by omega)
  by_cases hmark : s.kind = .interpolationStart
  · simp only [hmark]
    refine .bind hafter (.next (by simp [hmark])) fun mark s₁ hlater₁ hlt => ?_
    refine .bind hlater₁ (expression_ends ho s₁ (by omega)) fun e s₂ hlater₂ hle₂ => ?_
    exact .bind hlater₂ (Ends.closer _ _).here fun _ _ hlater₃ hle₃ => .goOn _ hlater₃ (by omega)
  by_cases hquote : s.kind = .stringEnd
  · simp only [hquote]
    exact .last hafter (Ends.next.bind fun _ => .pure _).here
  · have hends : EndsAt s 0
        (recover policy (s.errorHere .unterminatedString) (p, Span.empty s.lastStop)) :=
      (Ends.recover _ _).here
    refine (Round.last hafter hends).of_eq fun rounds => congrFun ?_ s
    split
    · exact absurd ‹_› hcontent
    · exact absurd ‹_› hmark
    · exact absurd ‹_› hquote
    · rfl

theorem stringParts_ends (ho : Ends n 0 operand) (fuel : Nat) {m : Nat} (p : Pieces)
    (hn : m ≤ n + 1) (hfuel : m ≤ fuel) : Ends m 0 (stringParts policy operand fuel p) :=
  .of_rounds (stringParts_round ho) fuel p hn hfuel

theorem string_ends (ho : Ends n 0 operand) (hn : m ≤ n + 1) (hfuel : m ≤ fuel) :
    Ends m 0 (string policy fuel operand) :=
  Ends.next.bind fun _ => (stringParts_ends ho fuel _ hn hfuel).bind fun _ => .pure _

/-- Primaries.  In brackets and in strings, operands start behind the first token. -/
theorem primary_ends (ho : Ends n 0 operand) (hn : m ≤ n + 1) (hfuel : m ≤ fuel) :
    Ends m 0 (primary policy fuel operand) := by
  intro s hs
  refine .look ?_
  dsimp only
  split
  · exact Ends.next.bind (fun _ => .pure _) s hs
  · exact Ends.next.bind (fun _ => .pure _) s hs
  · refine Ends.next.bind (fun _ => ?_) s hs
    split
    · exact .pure _
    · exact .fail _
  · exact string_ends ho hn hfuel s hs
  · exact (function_ends ho hn hfuel s hs).weaken
  · exact (function_ends ho hn hfuel s hs).weaken
  · rename_i hkind
    exact .take hs (by simp [State.kind, hkind]) <| ((expression_ends ho).mono (by omega)).bind
      fun _ => (Ends.closer _ _).bind fun _ => .pure _
  · exact Ends.recover _ _ s hs

theorem argument_ends (ho : Ends n 0 operand) : Ends n 0 (argument operand) := by
  intro s hs
  refine .look ?_
  split
  · exact Ends.next.bind (fun _ => Ends.next.bind fun _ => ho.bind fun _ => .pure _) s hs
  · exact ho.bind (fun _ => .pure _) s hs

theorem argumentList_round (ho : Ends n 0 operand) (read : List (Argument Expr)) (s : State)
    (hs : s.rest.length < n) :
    Round (argumentList operand) s s fun rounds => argumentList operand (rounds + 1) read := by
  refine .bind (.refl s) (argument_ends ho s hs) fun arg s₁ hlater₁ hle => ?_
  refine .accept (by simp) hlater₁ (fun s₂ hlater₂ hlt => ?_) (.last hlater₁ (Ends.pure _).here)
  refine .look (.split (fun _ => .goOn _ hlater₂ (by omega)) fun _ => ?_)
  exact .last hlater₂ (Ends.pure _).here

theorem argumentList_ends (ho : Ends n 0 operand) (fuel : Nat) {m : Nat}
    (read : List (Argument Expr)) (hn : m ≤ n) (hfuel : m ≤ fuel) :
    Ends m 0 (argumentList operand fuel read) :=
  .of_rounds (argumentList_round ho) fuel read hn hfuel

/-- One round of the loop over the functions behind a call. -/
theorem trailing_round (ho : Ends n 0 operand) (hn : m ≤ n + 1) (hfuel : m ≤ fuel)
    (read : List Expr × Span) (s : State) (hs : s.rest.length < m) :
    Round (fun rounds (r : List Expr × Span) => trailing policy fuel operand rounds r.1 r.2) s s
      fun rounds => trailing policy fuel operand (rounds + 1) read.1 read.2 := by
  refine .look (.split (fun _ => ?_) fun _ => .last (.refl s) (Ends.pure _).here)
  exact .bind (.refl s) (function_ends ho hn hfuel s hs) fun f s' hlater hlt =>
    .goOn (f :: read.1, f.spanOr read.2) hlater (by omega)

/-- Where a function starts it is read, and so tokens are passed. -/
theorem trailing_ends (ho : Ends n 0 operand) : ∀ (rounds : Nat) {m : Nat} (read : List Expr)
    (stop : Span) (s : State), m ≤ n + 1 → m ≤ fuel → m ≤ rounds → s.rest.length < m →
      EndsAt s s.startsFunction.toNat (trailing policy fuel operand rounds read stop)
  | 0, m, _, _, s, _, _, hrounds, hs => by omega
  | rounds + 1, m, read, stop, s, hn, hfuel, hrounds, hs => by
      refine .look ?_
      split
      · rename_i hstarts
        rw [hstarts]
        exact (function_ends ho hn hfuel).bind (fun f => .of_rounds
          (trailing_round ho hn hfuel) rounds (f :: read, f.spanOr stop) (Nat.sub_le m 1)
          (by omega)) s hs
      · rename_i hstarts
        rw [Bool.not_eq_true] at hstarts
        rw [hstarts]
        exact Ends.pure _ s hs

/-- Where arguments start tokens are passed. -/
theorem arguments_ends (ho : Ends n 0 operand) (hn : m ≤ n + 1) (hfuel : m ≤ fuel) {s : State}
    (hs : s.rest.length < m) :
    EndsAt s s.startsArguments.toNat (arguments policy fuel operand) := by
  -- the closing parenthesis and what follows it, whatever the arguments
  have hclose : ∀ args : List (Argument Expr), Ends (m - 1) 0 (do
      let stop ← closer policy .rightParen .unclosedArguments
      let r ← trailing policy fuel operand fuel [] stop
      Parser.pure (⟨args, r.1, r.2⟩ : Arguments)) := fun args =>
    (Ends.closer _ _).bind fun stop => Ends.bind (k := 0)
      (fun s hs => (trailing_ends ho fuel _ _ s (m := m) hn hfuel hfuel (by omega)).weaken)
      fun _ => .pure _
  refine .look ?_
  split
  · rename_i hkind
    rw [show s.startsArguments = true by simp [State.startsArguments, hkind]]
    refine .take hs (by simp [hkind]) fun s hs => .look ?_
    dsimp only
    split
    · exact (Ends.pure _).bind hclose s hs
    · exact (argumentList_ends ho fuel (m := m - 1) _ (by omega) (by omega)).bind hclose s hs
  -- without parentheses a token is passed if there is a function at all
  · rename_i hkind
    have hfunction : s.startsArguments = s.startsFunction := by
      rw [State.startsArguments, State.startsFunction, beq_eq_false_iff_ne.mpr hkind,
        Bool.false_or]
    have hread : EndsAt s _ (trailing policy fuel operand fuel [] s.peek.span) :=
      trailing_ends ho fuel [] s.peek.span s hn hfuel hfuel hs
    rw [hfunction]
    refine hread.bind hs fun _ => ?_
    rw [Nat.sub_self]
    exact .pure _

theorem callTail_round (ho : Ends n 0 operand) (hn : m ≤ n + 1) (hfuel : m ≤ fuel) (e : Expr)
    (s : State) (hs : s.rest.length < m) :
    Round (callTail policy fuel operand) s s fun rounds =>
      callTail policy fuel operand (rounds + 1) e := by
  refine .look (.split (fun hstarts => ?_) fun _ => .last (.refl s) (Ends.pure _).here)
  have hpassed : s.startsArguments.toNat = 1 := congrArg Bool.toNat hstarts
  exact .bind (.refl s) (arguments_ends ho hn hfuel hs) fun a s' hlater hlt =>
    .goOn _ hlater (by omega)

theorem callTail_ends (ho : Ends n 0 operand) (rounds : Nat) {m : Nat} (e : Expr) (hn : m ≤ n + 1)
    (hfuel : m ≤ fuel) (hrounds : m ≤ rounds) : Ends m 0 (callTail policy fuel operand rounds e) :=
  .of_rounds (callTail_round ho hn hfuel) rounds e (Nat.le_refl m) hrounds

theorem fieldKey_ends (dot : Span) : Ends n 0 (fieldKey policy dot) := by
  intro s hs
  refine .look ?_
  dsimp only
  split
  · exact Ends.next.bind (fun _ => .pure _) s hs
  · exact Ends.next.bind (fun _ => .pure _) s hs
  · refine Ends.next.bind (fun _ => ?_) s hs
    split
    · exact .pure _
    · exact .fail _
  · exact Ends.recover _ _ s hs

theorem accessTail_round (ho : Ends n 0 operand) (hn : m ≤ n + 1) (hfuel : m ≤ fuel) (e : Expr)
    (s : State) (hs : s.rest.length < m) :
    Round (accessTail policy fuel operand) s s fun rounds =>
      accessTail policy fuel operand (rounds + 1) e := by
  have hafter := State.Later.refl s
  refine .look (.split (fun hdot => ?_) fun _ => .last hafter (Ends.pure _).here)
  refine .bind hafter (.next (by simp [hdot])) fun dot s₁ hlater₁ hlt => ?_
  refine .bind hlater₁ (fieldKey_ends _).here fun (key, keySpan) s₂ hlater₂ hle₂ => ?_
  refine .look (.split (fun _ => ?_) fun _ => .goOn _ hlater₂ (by omega))
  refine .bind hlater₂ (arguments_ends ho hn hfuel (by omega))
    fun a s₃ hlater₃ hle₃ => ?_
  exact .bind hlater₃ (callTail_ends ho fuel _ hn hfuel hfuel s₃ (by omega))
    fun called s₄ hlater₄ hle₄ => .goOn _ hlater₄ (by omega)

theorem accessTail_ends (ho : Ends n 0 operand) (rounds : Nat) {m : Nat} (e : Expr)
    (hn : m ≤ n + 1) (hfuel : m ≤ fuel) (hrounds : m ≤ rounds) :
    Ends m 0 (accessTail policy fuel operand rounds e) :=
  .of_rounds (accessTail_round ho hn hfuel) rounds e (Nat.le_refl m) hrounds

theorem access_ends (ho : Ends n 0 operand) (hn : m ≤ n + 1) (hfuel : m ≤ fuel) :
    Ends m 0 (access policy fuel operand) :=
  (primary_ends ho hn hfuel).bind fun _ => (callTail_ends ho fuel _ hn hfuel hfuel).bind fun _ =>
    accessTail_ends ho fuel _ hn hfuel hfuel

theorem operationTail_round (ho : Ends n 0 operand) (lhs : Expr) (s : State)
    (hs : s.rest.length < n) :
    Round (operationTail operand) s s fun rounds => operationTail operand (rounds + 1) lhs := by
  refine .look (.split (fun hname => ?_) fun _ => .last (.refl s) (Ends.pure _).here)
  have hkind : s.kind ≠ .eof := fun heof => by simp [State.atName, heof] at hname
  refine .bind (.refl s) (.next hkind) fun operator s₁ hlater₁ hlt => ?_
  exact .bind hlater₁ (ho s₁ (by omega)) fun rhs s₂ hlater₂ hle => .goOn _ hlater₂ (by omega)

theorem operationTail_ends (ho : Ends n 0 operand) (rounds : Nat) {m : Nat} (lhs : Expr)
    (hn : m ≤ n) (hrounds : m ≤ rounds) : Ends m 0 (operationTail operand rounds lhs) :=
  .of_rounds (operationTail_round ho) rounds lhs hn hrounds

end

theorem operation_ends (policy : Policy) : ∀ fuel : Nat, Ends (fuel - 1) 0 (operation policy fuel)
  | 0 => fun s hs => by omega
  | fuel + 1 => by
      have hoperand : Ends fuel 0 (access policy fuel (operation policy fuel)) :=
        access_ends (operation_ends policy fuel) (by omega) (Nat.le_refl fuel)
      exact hoperand.bind fun _ => operationTail_ends hoperand fuel _ (Nat.le_refl _) (Nat.le_refl _)

/-- **Every program is read to its end.** -/
theorem program_done (policy : Policy) (tokens : List Token) :
    ∃ es s, program policy (tokens.length + 2) (.start tokens) = .done es s := by
  have hends : EndsAt (.start tokens) 0 (program policy (tokens.length + 2)) :=
    block_ends (expression_ends (operation_ends policy (tokens.length + 2))) .eof _ []
      (Nat.le_refl _) (Nat.sub_le _ _) _ (Nat.lt_succ_self _)
  rw [EndsAt] at hends
  cases hreply : program policy (tokens.length + 2) (.start tokens) with
  | done es s => exact ⟨es, s, rfl⟩
  | failed e s => exact absurd hreply (block_ne_failed _ _ _ _ _ e s)
  | starved =>
    rw [hreply] at hends
    exact hends.elim

end Parser

end Protean
