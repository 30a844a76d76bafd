import Protean.Proofs.Parser.Progress

/-!
# Proofs — Parser — the cursor

The number of tokens that were read is a cursor in the list of all tokens.  Where the list ends in its
only end, no reader moves the cursor back or off the list, and a loop that goes on to another round has
moved it.  `Reader` and `Loop` list the readers and the loops of the grammar, with the fuel that the
tokens in front of them ask for.

**Reading makes progress**, by strict and by tolerant readers: `reading_makes_progress`.

* `EndsOnce`: a list of tokens that ends with its only end of text.
* `State.On`, `State.Onward`: a state whose cursor stands in the list, and a later one.
* `Turn`: what one round of a loop comes to, seen from the cursor.
* `Reader.ends`, `Loop.round`: from the lemmas about the readers to the list of all of them.
-/

namespace Protean

namespace Parser

variable {α β γ : Type}

/-! ### Cursors

The cursor of a state, and what it is for the text to end once. -/

/-- The last of the `tokens` is the end, and no other one is. -/
def EndsOnce (tokens : List Token) : Prop :=
  ∃ inner eof, tokens = inner ++ [eof] ∧ eof.kind = .eof ∧ ∀ t ∈ inner, t.kind ≠ .eof

namespace State

variable {tokens : List Token} {s s' : State}

/-- The cursor of `s` is on one of the `tokens`, and what is left starts there. -/
structure On (tokens : List Token) (s : State) : Prop where
  rest : s.rest = tokens.drop s.consumed
  inside : s.consumed < tokens.length

/-- The cursor of `s'` is on one of the `tokens`, and not in front of that of `s`. -/
structure Onward (tokens : List Token) (s s' : State) : Prop where
  on : s'.On tokens
  consumed : s.consumed ≤ s'.consumed

namespace On

theorem start (h : EndsOnce tokens) : (State.start tokens).On tokens := by
  obtain ⟨inner, eof, rfl, -, -⟩ := h
  exact ⟨rfl, by simp [State.start]⟩

theorem rest_eq_cons (h : s.On tokens) :
    s.rest = tokens.get ⟨s.consumed, h.inside⟩ :: tokens.drop (s.consumed + 1) := by
  rw [h.rest]
  exact List.drop_eq_getElem_cons h.inside

/-- The token that is looked at is there. -/
theorem getElem?_consumed (h : s.On tokens) : tokens[s.consumed]? = some s.peek := by
  rw [State.peek, h.rest_eq_cons, List.getElem?_eq_getElem h.inside]
  rfl

/-- What was read and what is left are all tokens. -/
theorem length_rest (h : s.On tokens) : s.consumed + s.rest.length = tokens.length := by
  have hinside := h.inside
  rw [h.rest, List.length_drop]
  omega

/-- The end of the text is still ahead. -/
theorem hasEnd (h : s.On tokens) (hends : EndsOnce tokens) : s.HasEnd := by
  obtain ⟨inner, eof, rfl, heof, -⟩ := hends
  have hinside := h.inside
  rw [List.length_append, List.length_singleton] at hinside
  refine ⟨eof, ?_, heof⟩
  rw [h.rest, List.drop_append_of_le_length (by omega)]
  exact List.mem_append_right _ (List.mem_singleton_self eof)

/-- A state that is reached over tokens, but not over the end, has its cursor on a token again. -/
theorem onward (h : s.On tokens) (hends : EndsOnce tokens) (hlater : s.Later s') :
    s.Onward tokens s' := by
  obtain ⟨t, ht, -⟩ := hlater.ends (h.hasEnd hends)
  have hpos : 0 < s'.rest.length := List.length_pos_of_mem ht
  have hsum : s'.consumed + s'.rest.length = tokens.length := hlater.consumed.trans h.length_rest
  have hsuffix : s'.rest <:+ tokens := hlater.rest.trans (h.rest ▸ List.drop_suffix _ _)
  refine ⟨⟨?_, by omega⟩, ?_⟩
  · rw [List.suffix_iff_eq_drop.mp hsuffix]
    congr 1
    omega
  · have hle := hlater.length_le
    have hlength := h.length_rest
    omega

/-- The only end is the last token. -/
theorem consumed_of_eof (h : s.On tokens) (hends : EndsOnce tokens) (hkind : s.kind = .eof) :
    s.consumed + 1 = tokens.length := by
  obtain ⟨inner, eof, rfl, -, hinner⟩ := hends
  have hinside := h.inside
  have hpeek := h.getElem?_consumed
  rw [List.length_append, List.length_singleton] at hinside ⊢
  have hlast : ¬s.consumed < inner.length := fun hlt => by
    rw [List.getElem?_append_left hlt] at hpeek
    exact hinner s.peek (List.mem_of_getElem? hpeek) hkind
  omega

end On

/-- Passing over a broken statement stops, or passes a token and goes on. -/
theorem synchronizeIn_rest (depth : Nat) (s : State) :
    s.synchronizeIn depth s.rest = s ∨ s.kind ≠ .eof ∧ ∃ depth',
      s.synchronizeIn depth s.rest = s.advance.synchronizeIn depth' s.advance.rest := by
  by_cases hkind : s.kind = .eof
  · refine .inl ?_
    rw [kind, peek] at hkind
    cases hrest : s.rest with
    | nil => rfl
    | cons t r =>
      rw [hrest, List.headD_cons] at hkind
      rw [synchronizeIn, hkind]
  · obtain ⟨r, hrest, hadvance⟩ := rest_of_kind hkind
    have hpassed : s.advance.rest = r := by rw [hadvance]
    rw [hpassed, hrest, synchronizeIn]
    split
    · exact .inl rfl
    all_goals first
      | exact .inr ⟨hkind, _, rfl⟩
      | split
        · exact .inl rfl
        · exact .inr ⟨hkind, _, rfl⟩

end State

/-! ### Readers and loops

The list of all readers and of all loops, with their fuel. -/

/-- The state in which a reader has replied. -/
def Reply.state? : Reply α → Option State
  | .done _ s => some s
  | .failed _ s => some s
  | .starved => none

/-- The loops of the grammar, with fuel for what is nested in their rounds if `n` tokens are left.  A
loop takes fuel for its rounds and what was read in the rounds before. -/
inductive Loop (policy : Policy) (n : Nat) : {γ β : Type} → (Nat → γ → Parser β) → Prop
  | block {fuel : Nat} (hfuel : n + 1 < fuel) (closer : TokenKind) :
      Loop policy n (block closer (expression policy (operation policy fuel)))
  | operationTail {fuel : Nat} (hfuel : n < fuel) :
      Loop policy n (operationTail (access policy fuel (operation policy fuel)))
  | accessTail {fuel : Nat} (hfuel : n < fuel) :
      Loop policy n (accessTail policy fuel (operation policy fuel))
  | callTail {fuel : Nat} (hfuel : n < fuel) :
      Loop policy n (callTail policy fuel (operation policy fuel))
  | argumentList {fuel : Nat} (hfuel : n + 1 < fuel) :
      Loop policy n (argumentList (operation policy fuel))
  | trailing {fuel : Nat} (hfuel : n < fuel) :
      Loop policy n fun rounds (read : List Expr × Span) =>
        trailing policy fuel (operation policy fuel) rounds read.1 read.2
  | stringParts {fuel : Nat} (hfuel : n < fuel) :
      Loop policy n (stringParts policy (operation policy fuel))
  | decoratorList {fuel : Nat} (hfuel : n < fuel) : Loop policy n (decoratorList fuel)
  | plainText : Loop policy n plainText

/-- The readers of the grammar, with enough fuel if `n` tokens are left. -/
inductive Reader (policy : Policy) (n : Nat) : {α : Type} → Parser α → Prop
  | next : Reader policy n next
  | pass (k : Nat) : Reader policy n (pass k)
  | expect (kind : TokenKind) (cause : GrammarCause) : Reader policy n (expect kind cause)
  | accept (kind : TokenKind) : Reader policy n (accept kind)
  | closer (kind : TokenKind) (cause : GrammarCause) : Reader policy n (closer policy kind cause)
  | fieldKey (dot : Span) : Reader policy n (fieldKey policy dot)
  | assignment (lhs value : Expr) (equals : Span) :
      Reader policy n (assignment policy lhs value equals)
  | loop {γ β : Type} {loop : Nat → γ → Parser β} (hloop : Loop policy n loop) {rounds : Nat}
      (hrounds : n < rounds) (read : γ) : Reader policy n (loop rounds read)
  | decorators {fuel : Nat} (hfuel : n < fuel) : Reader policy n (decorators policy fuel)
  | function {fuel : Nat} (hfuel : n < fuel) :
      Reader policy n (function policy fuel (operation policy fuel))
  | string {fuel : Nat} (hfuel : n < fuel) :
      Reader policy n (string policy fuel (operation policy fuel))
  | primary {fuel : Nat} (hfuel : n < fuel) :
      Reader policy n (primary policy fuel (operation policy fuel))
  | argument {fuel : Nat} (hfuel : n + 1 < fuel) :
      Reader policy n (argument (operation policy fuel))
  | arguments {fuel : Nat} (hfuel : n < fuel) :
      Reader policy n (arguments policy fuel (operation policy fuel))
  | access {fuel : Nat} (hfuel : n < fuel) :
      Reader policy n (access policy fuel (operation policy fuel))
  | operation {fuel : Nat} (hfuel : n + 1 < fuel) : Reader policy n (operation policy fuel)
  | destructuring {fuel : Nat} (hfuel : n + 1 < fuel) (names : List String) :
      Reader policy n (destructuring (operation policy fuel) names)
  | expression {fuel : Nat} (hfuel : n + 1 < fuel) :
      Reader policy n (expression policy (operation policy fuel))
  | program {fuel : Nat} (hfuel : n + 1 < fuel) : Reader policy n (program policy fuel)

section
variable {policy : Policy} {n : Nat} {loop : Nat → γ → Parser β}

/-- With fuel for more tokens than are left, each loop makes a round as it should. -/
theorem Loop.round (h : Loop policy n loop) (read : γ) (s : State) (hs : s.rest.length < n + 1) :
    Round loop s s fun rounds => loop (rounds + 1) read := by
  cases h with
  | @block fuel hfuel closer =>
    exact block_round (expression_ends (operation_ends policy fuel)) closer read s (by omega)
  | @operationTail fuel hfuel =>
    have haccess : Ends fuel 0 (access policy fuel (operation policy fuel)) :=
      access_ends (operation_ends policy fuel) (by omega) (Nat.le_refl fuel)
    exact operationTail_round haccess read s (by omega)
  | @accessTail fuel hfuel =>
    exact accessTail_round (operation_ends policy fuel) (by omega) (Nat.le_refl fuel) read s
      (by omega)
  | @callTail fuel hfuel =>
    exact callTail_round (operation_ends policy fuel) (by omega) (Nat.le_refl fuel) read s
      (by omega)
  | @argumentList fuel hfuel =>
    exact argumentList_round (operation_ends policy fuel) read s (by omega)
  | @trailing fuel hfuel =>
    exact trailing_round (operation_ends policy fuel) (by omega) (Nat.le_refl fuel) read s
      (by omega)
  | @stringParts fuel hfuel =>
    exact stringParts_round (operation_ends policy fuel) read s (by omega)
  | @decoratorList fuel hfuel => exact decoratorList_round read s (by omega)
  | plainText => exact plainText_round read s

theorem Reader.ends {p : Parser α} (h : Reader policy n p) : Ends (n + 1) 0 p := by
  cases h with
  | next => exact .next
  | pass k => exact .pass k
  | expect kind cause => exact .expected kind cause
  | accept kind => exact .accepted kind
  | closer kind cause => exact .closer kind cause
  | fieldKey dot => exact fieldKey_ends dot
  | assignment lhs value equals => exact assignment_ends lhs value equals
  | loop hloop hrounds read => exact .of_rounds hloop.round _ read (Nat.le_refl _) hrounds
  | decorators hfuel => exact decorators_ends hfuel
  | @function fuel hfuel =>
    exact fun s hs => (function_ends (operation_ends policy fuel) (by omega) hfuel s hs).weaken
  | @string fuel hfuel => exact string_ends (operation_ends policy fuel) (by omega) hfuel
  | @primary fuel hfuel => exact primary_ends (operation_ends policy fuel) (by omega) hfuel
  | @argument fuel hfuel => exact argument_ends ((operation_ends policy fuel).mono (by omega))
  | @arguments fuel hfuel =>
    exact fun s hs => (arguments_ends (operation_ends policy fuel) (by omega) hfuel hs).weaken
  | @access fuel hfuel => exact access_ends (operation_ends policy fuel) (by omega) hfuel
  | @operation fuel hfuel => exact (operation_ends policy fuel).mono (by omega)
  | @destructuring fuel hfuel names =>
    exact destructuring_ends ((operation_ends policy fuel).mono (by omega)) names
  | @expression fuel hfuel => exact expression_ends ((operation_ends policy fuel).mono (by omega))
  | @program fuel hfuel =>
    exact block_ends (expression_ends (operation_ends policy fuel)) .eof fuel [] (by omega)
      (by omega)

end

/-! ### Progress

What holds of each of them. -/

/-- What a round of `loop` that starts at `s` comes to, whatever fuel there is for further rounds: a
reply, or the next round with the cursor on a later token. -/
inductive Turn (tokens : List Token) (loop : Nat → γ → Parser β) (read : γ) (s : State) : Prop
  | reply {r : Reply β} {s' : State} (hstate : r.state? = some s') (honward : s.Onward tokens s')
      (heq : ∀ rounds, loop (rounds + 1) read s = r)
  | again {read' : γ} {s' : State} (hon : s'.On tokens) (hpassed : s.consumed < s'.consumed)
      (heq : ∀ rounds, loop (rounds + 1) read s = loop rounds read' s')

section
variable {tokens : List Token} {s : State}

/-- A reader that answers has not moved the cursor back or off the list. -/
theorem EndsAt.onward {p : Parser α} (h : EndsAt s 0 p) (hon : s.On tokens)
    (hends : EndsOnce tokens) : ∃ s', (p s).state? = some s' ∧ s.Onward tokens s' := by
  rw [EndsAt] at h
  cases hreply : p s with
  | done a s' =>
    rw [hreply] at h
    exact ⟨s', rfl, hon.onward hends h.1⟩
  | failed e s' =>
    rw [hreply] at h
    exact ⟨s', rfl, hon.onward hends h⟩
  | starved =>
    rw [hreply] at h
    exact h.elim

/-- A loop that goes on has moved it. -/
theorem Round.turn {loop : Nat → γ → Parser β} {read : γ}
    (h : Round loop s s fun rounds => loop (rounds + 1) read) (hon : s.On tokens)
    (hends : EndsOnce tokens) : Turn tokens loop read s := by
  cases h with
  | answer hanswer heq =>
    obtain ⟨s', hstate, honward⟩ := hanswer.onward hon hends
    exact .reply hstate honward heq
  | again hlater hlt heq =>
    refine .again (hon.onward hends hlater).on ?_ heq
    have hsum := hlater.consumed
    omega

/-- A program is read up to the end. -/
theorem program_onward (policy : Policy) {fuel : Nat} (hends : EndsOnce tokens)
    (hfuel : tokens.length + 1 < fuel) :
    ∃ es s, program policy fuel (.start tokens) = .done es s ∧ s.On tokens ∧
      s.kind = .eof ∧ s.consumed + 1 = tokens.length := by
  have hreader : Reader policy tokens.length (program policy fuel) := .program hfuel
  obtain ⟨s', hstate, honward⟩ :=
    (hreader.ends (.start tokens) (Nat.lt_succ_self _)).onward (.start hends) hends
  cases hreply : program policy fuel (.start tokens) with
  | done es s =>
    rw [hreply] at hstate
    obtain rfl : s = s' := Option.some.inj hstate
    have hkind : s.kind = .eof := by simpa [State.atEnd] using block_atEnd fuel [] _ hreply
    exact ⟨es, s, rfl, honward.on, hkind, honward.on.consumed_of_eof hends hkind⟩
  | failed e s => exact absurd hreply (block_ne_failed _ _ _ _ _ e s)
  | starved =>
    rw [hreply] at hstate
    cases hstate

end

end Parser

open Protean.Parser

/-- **Reading makes progress.**  Let the last of the `tokens` be the end, and no other one.  Where the
cursor is on one of them, that one is the token which is looked at.  Passing a token, the separators or
what is left of a broken statement, and every reader of the grammar, strict or tolerant, with success or
without, leave the cursor on a token that is not in front of where it was.  A round of a loop replies, or
the next round starts from a later token; passing over a broken statement stops, or goes on from the next
token.  Hence a program is read with fuel for its tokens, and then the cursor is on the end. -/
theorem reading_makes_progress (policy : Policy) (tokens : List Token) (hends : EndsOnce tokens) :
    (∀ s : State, s.On tokens →
      tokens[s.consumed]? = some s.peek ∧
      s.Onward tokens s.advance ∧
      s.Onward tokens s.skipSeparators ∧
      s.Onward tokens s.synchronize ∧
      (∀ (α : Type) (p : Parser α), Reader policy s.rest.length p →
        ∃ s', (p s).state? = some s' ∧ s.Onward tokens s') ∧
      (∀ (γ β : Type) (loop : Nat → γ → Parser β) (read : γ), Loop policy s.rest.length loop →
        Turn tokens loop read s) ∧
      ∀ depth, s.synchronizeIn depth s.rest = s ∨ ∃ (depth' : Nat) (s' : State), s'.On tokens ∧
        s'.consumed = s.consumed + 1 ∧
        s.synchronizeIn depth s.rest = s'.synchronizeIn depth' s'.rest) ∧
    ∀ fuel, tokens.length + 1 < fuel → ∃ es s, program policy fuel (.start tokens) = .done es s ∧
      s.On tokens ∧ s.kind = .eof ∧ s.consumed + 1 = tokens.length := by
  refine ⟨fun s hon => ⟨hon.getElem?_consumed, hon.onward hends (.advance s),
    hon.onward hends (.skipSeparatorsIn s.rest s), hon.onward hends (.synchronizeIn 0 s.rest s),
    fun α p hreader => ?_, fun γ β loop read hloop => ?_, fun depth => ?_⟩,
    fun fuel hfuel => program_onward policy hends hfuel⟩
  · exact (hreader.ends s (Nat.lt_succ_self _)).onward hon hends
  · exact (hloop.round read s (Nat.lt_succ_self _)).turn hon hends
  · refine (s.synchronizeIn_rest depth).imp_right fun ⟨hkind, depth', heq⟩ => ?_
    obtain ⟨r, -, hadvance⟩ := State.rest_of_kind hkind
    exact ⟨depth', s.advance, (hon.onward hends (.advance s)).on, by rw [hadvance], heq⟩

/-- The theorem at a dot between delimiters that nothing closes, where a tolerant reader imagines what
is in front of the dot and behind it. -/
theorem reading_makes_progress_unclosed :
    let tokens : List Token := [⟨.leftParen, "(", ⟨0, 1⟩⟩, ⟨.dot, ".", ⟨1, 2⟩⟩,
      ⟨.leftBrace, "\x7b", ⟨2, 3⟩⟩, ⟨.eof, "", ⟨3, 3⟩⟩]
    EndsOnce tokens ∧
      Turn tokens (block .eof (expression .tolerant (operation .tolerant 6))) [] (.start tokens) ∧
      ∃ es s, program .tolerant 6 (.start tokens) = .done es s ∧ s.kind = .eof ∧ s.consumed = 3 := by
  intro tokens
  have hends : EndsOnce tokens := ⟨tokens.dropLast, ⟨.eof, "", ⟨3, 3⟩⟩, rfl, rfl, by decide⟩
  have hprogress := reading_makes_progress .tolerant tokens hends
  obtain ⟨-, -, -, -, -, hrounds, -⟩ := hprogress.1 (.start tokens) (.start hends)
  obtain ⟨es, s, hread, -, hkind, hconsumed⟩ := hprogress.2 6 (by decide)
  exact ⟨hends, hrounds _ _ _ [] (.block (by decide) .eof), es, s, hread, hkind,
    Nat.succ.inj hconsumed⟩

end Protean
