import Protean.Proofs.Expr.Places
import Protean.Proofs.Parser.Lockstep

/-!
# Proofs — Parser — readers in parallel

Two readers of the same construct run side by side on tokens that differ in their places only, from a
token on that either differs between the two texts or ends both.  A `Frame` says what is compared: how
places on the left are moved to the right, what is known of places on the left, and what stands behind
the tokens both have in common.

* A *closed* frame ends both texts with the same token.  The readers have the same policy, and whatever
  one of them does the other does as well.
* In an *open* frame the text on the left ends where that on the right goes on behind a newline.  The
  reader on the left is strict, and as long as it does not complain, the other one, strict or tolerant,
  reads the same and stops at the same place.

`Frame.At` states this of two readers, and it goes through all of them, from the innermost to blocks.
Fuel never matters: the reader on the right may have more of it.

The parts of the comparison:

* `Frame`, `View`: how places are moved, and how values that readers give are moved along with them.
* `Frame.Abreast`, `Frame.Aligned`: states of the two readers that have the same tokens ahead.
* `Frame.Answers`, `Frame.At`: replies that correspond, and readers that give such replies.
* `Frame.Settles`: where the loop over statements ends, in a closed and in an open frame.
-/

namespace Protean

/-- The kinds at which a line of statements may end. -/
def TokenKind.isEdge : TokenKind → Bool
  | .newline | .eof => true
  | _ => false

/-- What either text may go on with behind the common tokens is a newline or the end. -/
theorem TokenKind.isEdge_iff {kind : TokenKind} :
    kind.isEdge = true ↔ kind = .newline ∨ kind = .eof := by
  cases kind <;> simp [isEdge]

theorem TokenKind.ne_of_isEdge {kind other : TokenKind} (h : kind.isEdge = true)
    (hother : other.isEdge = false) : kind ≠ other := by
  rintro rfl
  rw [h] at hother
  cases hother

namespace Parser

variable {α β : Type}

/-! ### Frames

What is compared, and how values are moved from the left to the right. -/

/-- What two texts have to do with each other that are read side by side. -/
structure Frame where
  /-- Where an offset on the left stands on the right. -/
  move : Nat → Nat
  mono : Monotone move
  /-- What is known of offsets on the left. -/
  site : Nat → Prop
  /-- How many tokens more were passed on the right. -/
  ahead : Nat
  left : Policy
  right : Policy
  /-- The first token that both do not have in common, and the tokens behind it. -/
  stop : Token
  behind : List Token
  stop' : Token
  behind' : List Token
  closed : Bool
  of_closed : closed = true → right = left ∧ stop.kind = .eof ∧ stop' = stop.relocate move ∧
    stop.span.Sited site
  of_open : closed = false → left = .strict ∧ stop'.kind = .newline ∧
    (stop.kind = .eof ∨ stop.kind = .newline ∧ ∃ t r, behind = t :: r ∧ t.kind = .eof)

/-- How values of a type are moved, and what it takes that all their places are known. -/
structure View (α : Type) where
  move : α → α
  sited : α → Prop

/-- Values without places. -/
def View.same : View α := ⟨id, fun _ => True⟩

namespace Frame

section
variable (F : Frame)

/-- Spans move by their ends. -/
def span : View Span := ⟨Span.relocate F.move, Span.Sited F.site⟩

/-- Tokens move by their spans. -/
def token : View Token := ⟨Token.relocate F.move, fun t => t.span.Sited F.site⟩

/-- Trees move by the spans of all their nodes. -/
def tree : View Expr := ⟨Expr.relocate F.move, Expr.Every (Expr.Sited F.site)⟩

/-- Several trees. -/
def trees : View (List Expr) := ⟨Expr.relocateAll F.move, fun es => ∀ e ∈ es, F.tree.sited e⟩

/-- Arguments move by their values. -/
def arg : View (Argument Expr) :=
  ⟨fun a => ⟨a.name, a.value.relocate F.move⟩, fun a => F.tree.sited a.value⟩

/-- Several arguments. -/
def args : View (List (Argument Expr)) :=
  ⟨Expr.relocateArgs F.move, fun args => ∀ a ∈ args, F.tree.sited a.value⟩

@[simp] theorem span_move (s : Span) : F.span.move s = s.relocate F.move := rfl

@[simp] theorem tree_move (e : Expr) : F.tree.move e = e.relocate F.move := rfl

@[simp] theorem trees_move (es : List Expr) : F.trees.move es = Expr.relocateAll F.move es := rfl

@[simp] theorem args_move (args : List (Argument Expr)) :
    F.args.move args = Expr.relocateArgs F.move args := rfl

/-! ### States and replies side by side

States with the same tokens ahead, and replies that correspond. -/

/-- The tokens `x` are the next ones on both sides, and the state on the right is that on the left, moved.
Where the last token ended matters only where one was passed. -/
structure Abreast (x : List Token) (s s' : State) : Prop where
  rest : s.rest = x ++ F.stop :: F.behind
  rest' : s'.rest = x.map (Token.relocate F.move) ++ F.stop' :: F.behind'
  known : ∀ t ∈ x, t.kind ≠ .eof ∧ t.span.Sited F.site
  consumed : s'.consumed = s.consumed + F.ahead
  lastStop : s.consumed ≠ 0 → s'.lastStop = F.move s.lastStop ∧ F.site s.lastStop
  errors : s'.errors = s.errors.map (GrammarError.relocate F.move)
  sited : ∀ e ∈ s.errors, e.span.Sited F.site

/-- The states are the same up to places, with some tokens in common ahead. -/
def Aligned (s s' : State) : Prop := ∃ x, F.Abreast x s s'

/-- In an open frame nothing was complained about. -/
def Sound (s : State) : Prop := F.closed = true ∨ s.errors = []

/-- A reply that says something about the reader on the right. -/
def Good : Reply α → Prop
  | .done _ s => F.Sound s
  | .failed _ _ => F.closed = true
  | .starved => False

/-- The reply on the right is that on the left, moved, to readers that started from `s`. -/
inductive Answers (V : View α) (s : State) : Reply α → Reply α → Prop where
  | done {a : α} {s₁ s₁' : State} (ha : V.sited a) (halign : F.Aligned s₁ s₁') (hlater : s.Later s₁) :
      Answers V s (.done a s₁) (.done (V.move a) s₁')
  | failed {e : GrammarError} {s₁ s₁' : State} (he : e.span.Sited F.site)
      (halign : F.Aligned s₁ s₁') (hlater : s.Later s₁) :
      Answers V s (.failed e s₁) (.failed (e.relocate F.move) s₁')

/-- From `s` and `s'`, aligned and under `pre`, the readers give the same answers, unless the one on the
left complains.  What was complained about stays, whether or not the states are aligned. -/
def At (pre : Prop) (V : View α) (s s' : State) (p q : Parser α) : Prop :=
  F.Good (p s) → F.Sound s ∧ (pre → F.Aligned s s' → F.Answers V s (p s) (q s'))

end

variable {F : Frame} {pre : Prop} {V : View α} {W : View β} {s s' s₁ s₁' : State} {p q : Parser α}

/-- Replies that correspond still do, seen from an earlier state. -/
theorem Answers.later {r r' : Reply α} (h : F.Answers V s₁ r r') (hlater : s.Later s₁) :
    F.Answers V s r r' := by
  cases h with
  | done ha halign hlater' => exact .done ha halign (hlater.trans hlater')
  | failed he halign hlater' => exact .failed he halign (hlater.trans hlater')

/-! ### The next token

What the two readers see in front of them. -/

/-- Behind the common tokens there is a newline or the end, in both texts. -/
theorem stop_isEdge (F : Frame) : F.stop.kind.isEdge = true ∧ F.stop'.kind.isEdge = true := by
  cases hclosed : F.closed with
  | true =>
    obtain ⟨-, heof, hstop, -⟩ := F.of_closed hclosed
    rw [hstop]
    simp [Token.relocate, heof, TokenKind.isEdge]
  | false =>
    obtain ⟨-, hstop', hstop⟩ := F.of_open hclosed
    rcases hstop with hstop | ⟨hstop, -⟩ <;> simp [hstop, hstop', TokenKind.isEdge]

namespace Abreast

variable {x : List Token} {t : Token}

/-- The next token is the same for both, moved. -/
theorem peek (h : F.Abreast (t :: x) s s') : s.peek = t ∧ s'.peek = t.relocate F.move :=
  ⟨State.peek_of_rest h.rest, State.peek_of_rest h.rest'⟩

/-- Behind the common tokens each reader sees its own stop. -/
theorem peek_stop (h : F.Abreast [] s s') : s.peek = F.stop ∧ s'.peek = F.stop' :=
  ⟨State.peek_of_rest h.rest, State.peek_of_rest h.rest'⟩

/-- Both pass a token that they have in common. -/
theorem advance (h : F.Abreast (t :: x) s s') : F.Abreast x s.advance s'.advance := by
  obtain ⟨⟨heof, ht⟩, hx⟩ := List.forall_mem_cons.mp h.known
  have hadvance : s.advance = ⟨x ++ F.stop :: F.behind, s.consumed + 1, t.span.stop, s.errors⟩ := by
    rw [State.advance, h.rest]
    exact if_neg heof
  have hadvance' : s'.advance = ⟨x.map (Token.relocate F.move) ++ F.stop' :: F.behind',
      s'.consumed + 1, F.move t.span.stop, s'.errors⟩ := by
    rw [State.advance, h.rest']
    exact if_neg heof
  rw [hadvance, hadvance']
  exact ⟨rfl, rfl, hx, by rw [h.consumed, Nat.add_right_comm], fun _ => ⟨rfl, ht.stop⟩, h.errors,
    h.sited⟩

theorem note (h : F.Abreast x s s') {e : GrammarError} (he : e.span.Sited F.site) :
    F.Abreast x (s.note e) (s'.note (e.relocate F.move)) where
  rest := h.rest
  rest' := h.rest'
  known := h.known
  consumed := h.consumed
  lastStop := h.lastStop
  errors := by rw [State.note, State.note, h.errors, List.map_cons]
  sited := List.forall_mem_cons.mpr ⟨he, h.sited⟩

end Abreast

namespace Aligned

/-- The next token is the same on both sides, or lines end on both. -/
theorem peek (h : F.Aligned s s') :
    (s'.peek = s.peek.relocate F.move ∧ s.peek.span.Sited F.site) ∨
      (F.closed = false ∧ s.peek = F.stop ∧ s'.peek = F.stop') := by
  obtain ⟨_ | ⟨t, x⟩, h⟩ := h
  · rw [h.peek_stop.1, h.peek_stop.2]
    cases hclosed : F.closed with
    | true => exact .inl (F.of_closed hclosed).2.2
    | false => exact .inr ⟨rfl, rfl, rfl⟩
  · rw [h.peek.1, h.peek.2]
    exact .inl ⟨rfl, (h.known t List.mem_cons_self).2⟩

/-- In a closed frame the next token always is the same, moved. -/
theorem peek_closed (h : F.Aligned s s') (hclosed : F.closed = true) :
    s'.peek = s.peek.relocate F.move ∧ s.peek.span.Sited F.site := by
  rcases h.peek with hpeek | ⟨hopen, -⟩
  · exact hpeek
  · rw [hclosed] at hopen
    cases hopen

/-- The next tokens are of the same kind, or both at the stop of an open frame. -/
theorem kind (h : F.Aligned s s') :
    s'.kind = s.kind ∨ (F.closed = false ∧ s.kind.isEdge = true ∧ s'.kind.isEdge = true) := by
  rw [State.kind, State.kind]
  rcases h.peek with ⟨hpeek, -⟩ | ⟨hopen, hpeek, hpeek'⟩
  · exact .inl (by rw [hpeek]; rfl)
  · rw [hpeek, hpeek']
    exact .inr ⟨hopen, F.stop_isEdge⟩

/-- Kinds that no stop is of are seen by both or by neither. -/
theorem kind_iff (h : F.Aligned s s') {kind : TokenKind} (hkind : kind.isEdge = false) :
    s'.kind = kind ↔ s.kind = kind := by
  rcases h.kind with heq | ⟨-, hedge, hedge'⟩
  · rw [heq]
  · exact iff_of_false (TokenKind.ne_of_isEdge hedge' hkind) (TokenKind.ne_of_isEdge hedge hkind)

/-- Both pass a token at which no line ends. -/
theorem advance (h : F.Aligned s s') (hkind : s.kind.isEdge = false) :
    s'.peek = s.peek.relocate F.move ∧ s.peek.span.Sited F.site ∧ F.Aligned s.advance s'.advance := by
  obtain ⟨_ | ⟨t, x⟩, h⟩ := h
  · rw [State.kind, h.peek_stop.1, F.stop_isEdge.1] at hkind
    cases hkind
  · rw [h.peek.1, h.peek.2]
    exact ⟨rfl, (h.known t List.mem_cons_self).2, x, h.advance⟩

theorem note (h : F.Aligned s s') {e : GrammarError} (he : e.span.Sited F.site) :
    F.Aligned (s.note e) (s'.note (e.relocate F.move)) :=
  let ⟨x, h⟩ := h
  ⟨x, h.note he⟩

/-- In a closed frame an error at the next token is the same, moved. -/
theorem errorHere (h : F.Aligned s s') (hclosed : F.closed = true) (cause : GrammarCause) :
    s'.errorHere cause = (s.errorHere cause).relocate F.move ∧
      (s.errorHere cause).span.Sited F.site := by
  obtain ⟨hpeek, hsited⟩ := h.peek_closed hclosed
  rw [State.errorHere, hpeek]
  exact ⟨rfl, hsited⟩

/-- The end of the last token is the same, moved. -/
theorem lastStop (h : F.Aligned s s') (hs : s.consumed ≠ 0) :
    s'.lastStop = F.move s.lastStop ∧ F.site s.lastStop :=
  let ⟨_, h⟩ := h
  h.lastStop hs

end Aligned

/-- If all later errors are at places that are known, so are the earlier ones. -/
theorem Sound.of_suffix (h : F.Sound s₁) (herrors : s.errors <:+ s₁.errors) : F.Sound s := by
  rcases h with hclosed | hnone
  · exact .inl hclosed
  · rw [hnone] at herrors
    exact .inr (List.suffix_nil.mp herrors)

theorem Sound.of_errors (h : F.Sound s₁) (herrors : s₁.errors = s.errors) : F.Sound s :=
  h.of_suffix (herrors ▸ List.suffix_refl _)

/-! ### Rules

A rule for every combinator of readers. -/

namespace At

/-- Less may be asked for if more is known. -/
theorem mono {pre' : Prop} (h : F.At pre' V s s' p q) (hpre : pre → pre') : F.At pre V s s' p q :=
  fun hgood => ⟨(h hgood).1, fun hp => (h hgood).2 (hpre hp)⟩

/-- Only the reader on the left has to be taken as it is. -/
theorem congr {q₁ : Parser α} (h : F.At pre V s s' p q) (hq : F.Aligned s s' → q₁ s' = q s') :
    F.At pre V s s' p q₁ := by
  refine fun hgood => ⟨(h hgood).1, fun hp halign => ?_⟩
  rw [hq halign]
  exact (h hgood).2 hp halign

theorem pure {a a' : α} (heq : pre → a' = V.move a) (ha : pre → V.sited a) :
    F.At pre V s s' (Parser.pure a) (Parser.pure a') := by
  refine fun hgood => ⟨hgood, fun hp halign => ?_⟩
  rw [heq hp]
  exact .done (ha hp) halign (.refl s)

/-- A reader that fails on the left has nothing to say in an open frame. -/
theorem fail {e e' : GrammarError} (heq : pre → e' = e.relocate F.move)
    (he : pre → e.span.Sited F.site) : F.At pre V s s' (Parser.fail e) (Parser.fail e') := by
  refine fun hgood => ⟨.inl hgood, fun hp halign => ?_⟩
  rw [heq hp]
  exact .failed (he hp) halign (.refl s)

theorem starve (q : Parser α) : F.At pre V s s' Parser.starve q := fun hgood => hgood.elim

theorem failHere (cause : GrammarCause) :
    F.At pre V s s' (Parser.failHere cause) (Parser.failHere cause) := by
  refine fun hgood => ⟨.inl hgood, fun _ halign => ?_⟩
  obtain ⟨heq, hsited⟩ := halign.errorHere hgood cause
  rw [Parser.failHere, Parser.failHere, heq]
  exact .failed hsited halign (.refl s)

/-- In an open frame the left reader is strict, so it is no good when something is missing. -/
theorem not_good_recover (hopen : F.closed = false) (e : GrammarError) (a : α) (s : State) :
    ¬ F.Good (Parser.recover F.left e a s) := by
  rw [(F.of_open hopen).1]
  simp [Parser.recover, Good, hopen]

/-- A strict reader complains, which says nothing in an open frame; in a closed one both recover. -/
theorem recover {e e' : GrammarError} {a a' : α}
    (h : pre → F.closed = true → F.Aligned s s' → (e' = e.relocate F.move ∧ e.span.Sited F.site) ∧
      a' = V.move a ∧ V.sited a) :
    F.At pre V s s' (Parser.recover F.left e a) (Parser.recover F.right e' a') := by
  intro hgood
  cases hclosed : F.closed with
  | false =>
    exact absurd hgood (not_good_recover hclosed e a s)
  | true =>
    refine ⟨.inl hclosed, fun hp halign => ?_⟩
    obtain ⟨⟨rfl, he⟩, rfl, ha⟩ := h hp hclosed halign
    rw [(F.of_closed hclosed).1]
    cases F.left with
    | strict => exact .failed he halign (.refl s)
    | tolerant => exact .done ha (halign.note he) (.note s e)

/-- A reader that goes on with what another one has read, if it goes on at all. -/
theorem bind_or {k k' : α → Parser β}
    (hp : F.Good (p s) → F.Sound s ∧ (pre → F.Aligned s s' → F.Answers V s (p s) (q s') ∨
      ∃ a s₁, p s = .done a s₁ ∧ ¬ F.Good (k a s₁)))
    (hk : ∀ a s₁ s₁', F.At (pre ∧ V.sited a ∧ s.consumed ≤ s₁.consumed) W s₁ s₁' (k a)
      (k' (V.move a))) :
    F.At pre W s s' (p >>= k) (q >>= k') := by
  intro hgood
  have hbind : ∀ (p : Parser α) (k : α → Parser β) (s : State),
      (p >>= k) s = Parser.bind p k s := fun _ _ _ => rfl
  rw [hbind, Parser.bind] at hgood ⊢
  rw [hbind, Parser.bind]
  -- what the first reader does decides whether the second one starts
  cases hreply : p s with
  | done a s₁ =>
    rw [hreply] at hgood hp
    dsimp only at hgood hp ⊢
    obtain ⟨hsound, hanswers⟩ := hp (hk a s₁ s₁ hgood).1
    refine ⟨hsound, fun hpre halign => ?_⟩
    -- the second reader of an answer starts where the first one has stopped, on both sides
    rcases hanswers hpre halign with hanswer | ⟨a, s₁, heq, hbad⟩
    · generalize q s' = r' at hanswer
      cases hanswer with
      | @done _ _ s₁' ha halign₁ hlater =>
        have hle : s.consumed ≤ s₁.consumed := by
          have hsum := hlater.consumed
          have hlength := hlater.length_le
          omega
        exact ((hk a s₁ s₁' hgood).2 ⟨hpre, ha, hle⟩ halign₁).later hlater
    -- if the reader on the left is no good afterwards, there is nothing to show
    · cases heq
      exact absurd hgood hbad
  | failed e s₁ =>
    rw [hreply] at hgood hp
    dsimp only at hgood ⊢
    obtain ⟨hsound, hanswers⟩ := hp hgood
    refine ⟨hsound, fun hpre halign => ?_⟩
    rcases hanswers hpre halign with hanswer | ⟨a, s₁, heq, -⟩
    · generalize q s' = r' at hanswer
      cases hanswer with
      | failed he halign₁ hlater => exact .failed he halign₁ hlater
    · cases heq
  | starved =>
    rw [hreply] at hgood
    exact hgood.elim

/-- A choice by the kind of the next token, where the one on the left fails at the end of a line. -/
theorem kinds {q : TokenKind → Parser α} (h : F.At pre V s s' p (q s.kind))
    (hedge : F.closed = false → s.kind.isEdge = true → ¬ F.Good (p s)) :
    ∀ kind, s'.kind = kind → F.At pre V s s' p (q kind) := by
  rintro _ rfl hgood
  refine ⟨(h hgood).1, fun hpre halign => ?_⟩
  rcases halign.kind with hkind | ⟨hopen, hkind, -⟩
  · rw [hkind]
    exact (h hgood).2 hpre halign
  · exact absurd hgood (hedge hopen hkind)

/-- A choice by the next token, where the one on the left fails at the end of a line. -/
theorem peeks {q : Token → Parser α}
    (h : F.At (pre ∧ s.peek.span.Sited F.site) V s s' p (q (s.peek.relocate F.move)))
    (hedge : F.closed = false → s.kind.isEdge = true → ¬ F.Good (p s)) :
    ∀ t, s'.peek = t → F.At pre V s s' p (q t) := by
  rintro _ rfl hgood
  refine ⟨(h hgood).1, fun hpre halign => ?_⟩
  rcases halign.peek with ⟨hpeek, hsited⟩ | ⟨hopen, hpeek, -⟩
  · rw [hpeek]
    exact (h hgood).2 ⟨hpre, hsited⟩ halign
  · refine absurd hgood (hedge hopen ?_)
    rw [State.kind, hpeek]
    exact F.stop_isEdge.1

theorem bind {k k' : α → Parser β} (hp : F.At pre V s s' p q)
    (hk : ∀ a s₁ s₁', F.At (pre ∧ V.sited a ∧ s.consumed ≤ s₁.consumed) W s₁ s₁' (k a)
      (k' (V.move a))) : F.At pre W s s' (p >>= k) (q >>= k') :=
  bind_or (fun hgood => ⟨(hp hgood).1, fun hpre halign => .inl ((hp hgood).2 hpre halign)⟩) hk

/-- Readers that go by the state they start from. -/
theorem look {k k' : State → Parser α} (h : F.At (pre ∧ F.Aligned s s') V s s' (k s) (k' s')) :
    F.At pre V s s' (Parser.state >>= k) (Parser.state >>= k') :=
  fun hgood => ⟨(h hgood).1, fun hpre halign => (h hgood).2 ⟨hpre, halign⟩ halign⟩

/-- Readers that go on from states reached without complaint. -/
theorem step {u v : Parser α} (hp : p s = u s₁) (hq : F.Aligned s s' → q s' = v s₁')
    (halign : F.Aligned s s' → F.Aligned s₁ s₁') (hlater : s.Later s₁)
    (herrors : s₁.errors = s.errors) (h : F.At (pre ∧ F.Aligned s s') V s₁ s₁' u v) :
    F.At pre V s s' p q := by
  intro hgood
  rw [hp] at hgood ⊢
  refine ⟨(h hgood).1.of_errors herrors, fun hpre ha => ?_⟩
  rw [hq ha]
  exact ((h hgood).2 ⟨hpre, ha⟩ (halign ha)).later hlater

/-- Readers that pass a token they have looked at. -/
theorem next {k k' : Token → Parser α} (hkind : s.kind.isEdge = false)
    (h : F.At (pre ∧ s.peek.span.Sited F.site) V s.advance s'.advance (k s.peek)
      (k' (s.peek.relocate F.move))) :
    F.At pre V s s' (Parser.next >>= k) (Parser.next >>= k') := by
  refine step (u := k s.peek) (v := k' (s.peek.relocate F.move)) rfl (fun halign => ?_)
    (fun halign => (halign.advance hkind).2.2) (.advance s) (State.errors_advance s)
    (h.mono fun hpre => ⟨hpre.1, (hpre.2.advance hkind).2.1⟩)
  show k' s'.peek s'.advance = _
  rw [(halign.advance hkind).1]

/-- To take a token that is no stop moves on by one. -/
theorem consumed_advance (hkind : s.kind.isEdge = false) : s.advance.consumed = s.consumed + 1 := by
  obtain ⟨r, -, hadvance⟩ := State.rest_of_kind (TokenKind.ne_of_isEdge rfl hkind).symm
  rw [hadvance]

theorem take {k k' : Token → Parser α} (hkind : s.kind.isEdge = false)
    (h : ∀ s₁ s₁', F.At (pre ∧ s.peek.span.Sited F.site ∧ s.consumed < s₁.consumed) V s₁ s₁'
      (k s.peek) (k' (s.peek.relocate F.move))) :
    F.At pre V s s' (Parser.next >>= k) (Parser.next >>= k') :=
  next hkind ((h s.advance s'.advance).mono fun hpre =>
    ⟨hpre.1, hpre.2, by rw [consumed_advance hkind]; exact Nat.lt_succ_self _⟩)

/-- Readers that pass a token of a kind, or fail. -/
theorem expect {kind : TokenKind} (hkind : kind.isEdge = false) {cause : GrammarCause}
    {k k' : Token → Parser α}
    (h : ∀ t s₁ s₁', F.At (pre ∧ t.span.Sited F.site ∧ s.consumed < s₁.consumed) V s₁ s₁'
      (k t) (k' (t.relocate F.move))) :
    F.At pre V s s' (Parser.expect kind cause >>= k) (Parser.expect kind cause >>= k') := by
  have hbind : ∀ (k : Token → Parser α) (s : State), (Parser.expect kind cause >>= k) s =
      Parser.bind (Parser.expect kind cause) k s := fun _ _ => rfl
  simp only [Parser.bind, Parser.expect] at hbind
  by_cases heq : s.kind = kind
  · refine step (u := Parser.next >>= k) (v := Parser.next >>= k') ?_ (fun halign => ?_)
      (fun halign : F.Aligned s s' => halign) (.refl s) rfl ((take (heq ▸ hkind) (h s.peek)).mono And.left)
    · rw [hbind, if_pos heq]
      rfl
    · rw [hbind, if_pos ((halign.kind_iff hkind).mpr heq)]
      rfl
  · refine step (u := Parser.failHere cause) (v := Parser.failHere cause) ?_ (fun halign => ?_)
      (fun halign : F.Aligned s s' => halign) (.refl s) rfl (failHere cause)
    · rw [hbind, if_neg heq]
      rfl
    · rw [hbind, if_neg (mt (halign.kind_iff hkind).mp heq)]
      rfl

/-- Readers that pass a token of a kind if it is there. -/
theorem accept {kind : TokenKind} (hkind : kind.isEdge = false) {k k' : Bool → Parser α}
    (ht : ∀ s₁ s₁', F.At (pre ∧ s.consumed < s₁.consumed) V s₁ s₁' (k true) (k' true))
    (hf : F.At pre V s s' (k false) (k' false)) :
    F.At pre V s s' (Parser.accept kind >>= k) (Parser.accept kind >>= k') := by
  have hbind : ∀ (k : Bool → Parser α) (s : State), (Parser.accept kind >>= k) s =
      Parser.bind (Parser.accept kind) k s := fun _ _ => rfl
  simp only [Parser.bind, Parser.accept] at hbind
  by_cases heq : s.kind = kind
  · refine step (u := Parser.next >>= fun _ => k true) (v := Parser.next >>= fun _ => k' true)
      ?_ (fun halign => ?_) (fun halign : F.Aligned s s' => halign) (.refl s) rfl
      (take (heq ▸ hkind) fun s₁ s₁' => (ht s₁ s₁').mono fun hpre => ⟨hpre.1.1, hpre.2.2⟩)
    · rw [hbind, if_pos heq]
      rfl
    · rw [hbind, if_pos ((halign.kind_iff hkind).mpr heq)]
      rfl
  · refine step (u := k false) (v := k' false) ?_ (fun halign => ?_)
      (fun halign : F.Aligned s s' => halign) (.refl s) rfl (hf.mono And.left)
    · rw [hbind, if_neg heq]
    · rw [hbind, if_neg (mt (halign.kind_iff hkind).mp heq)]

/-- A closer that is imagined stands behind the last token, so one must have been passed. -/
theorem closer {kind : TokenKind} (hkind : kind.isEdge = false) (cause : GrammarCause)
    (hpre : pre → s.consumed ≠ 0) :
    F.At pre F.span s s' (Parser.closer F.left kind cause) (Parser.closer F.right kind cause) := by
  by_cases heq : s.kind = kind
  · refine step (u := Parser.next >>= fun t => Parser.pure t.span)
      (v := Parser.next >>= fun t => Parser.pure t.span) ?_ (fun halign => ?_)
      (fun halign : F.Aligned s s' => halign) (.refl s) rfl
      (take (heq ▸ hkind) fun _ _ => pure (fun _ => rfl) fun hpre => hpre.2.1)
    · rw [Parser.closer, if_pos heq]
      rfl
    · rw [Parser.closer, if_pos ((halign.kind_iff hkind).mpr heq)]
      rfl
  · refine step (u := Parser.recover F.left (s.errorHere cause) (.empty s.lastStop))
      (v := Parser.recover F.right (s'.errorHere cause) (.empty s'.lastStop)) ?_ (fun halign => ?_)
      (fun halign : F.Aligned s s' => halign) (.refl s) rfl (recover fun hp hclosed halign => ?_)
    · rw [Parser.closer, if_neg heq]
    · rw [Parser.closer, if_neg (mt (halign.kind_iff hkind).mp heq)]
    · obtain ⟨hstop, hsited⟩ := halign.lastStop (hpre hp.1)
      exact ⟨halign.errorHere hclosed cause, by rw [hstop]; rfl, .empty hsited⟩

/-- A choice by the next token, which both readers make alike. -/
theorem branch {c c' : Prop} [Decidable c] [Decidable c'] {p' q' : Parser α}
    (hc : F.Aligned s s' → (c' ↔ c)) (ht : c → F.At pre V s s' p q)
    (hf : ¬ c → F.At pre V s s' p' q') :
    F.At pre V s s' (if c then p else p') (if c' then q else q') := by
  by_cases h : c
  · rw [if_pos h]
    exact (ht h).congr fun halign => by rw [if_pos ((hc halign).mpr h)]
  · rw [if_neg h]
    exact (hf h).congr fun halign => by rw [if_neg (mt (hc halign).mp h)]

end At

/-! ### Separators

Both readers skip the same separators, as far as the common tokens go. -/

end Frame

theorem State.skipSeparators_advance {s : State} (h : s.atSeparator = true) :
    s.skipSeparators = s.advance.skipSeparators := by
  have hkind : s.kind = .newline ∨ s.kind = .semicolon := by simpa [State.atSeparator] using h
  obtain ⟨r, hrest, hadvance⟩ := State.rest_of_kind (s := s) (by rcases hkind with h | h <;> simp [h])
  have hr : s.advance.rest = r := by rw [hadvance]
  rw [skipSeparators, skipSeparators, hrest, hr]
  rw [kind] at hkind
  rcases hkind with hkind | hkind <;> rw [skipSeparatorsIn, hkind]

/-- Where there is no separator, nothing is skipped. -/
theorem State.skipSeparators_settled {s : State} (h : s.atSeparator = false) : s.skipSeparators = s := by
  cases hrest : s.rest with
  | nil => rw [skipSeparators, hrest, skipSeparatorsIn]
  | cons t r =>
    have hkind : t.kind ≠ .newline ∧ t.kind ≠ .semicolon := by
      simpa [State.atSeparator, State.kind, State.peek_of_rest hrest] using h
    rw [skipSeparators, hrest, skipSeparatorsIn]
    split
    · exact absurd ‹_› hkind.1
    · exact absurd ‹_› hkind.2
    · rfl

namespace Frame

variable {F : Frame} {pre : Prop} {V : View α} {W : View β} {s s' s₁ s₁' : State} {p q : Parser α}

namespace Abreast

variable {x : List Token} {t : Token}

/-- The next tokens are of the same kind while there are common ones. -/
theorem kind (h : F.Abreast (t :: x) s s') : s.kind = t.kind ∧ s'.kind = t.kind := by
  rw [State.kind, State.kind, h.peek.1, h.peek.2]
  exact ⟨rfl, rfl⟩

/-- Separators are passed up to a token in common, or up to where the texts differ. -/
theorem skipSeparators (h : F.Abreast x s s') : ∃ y s₁ s₁', F.Abreast y s₁ s₁' ∧
    s.Later s₁ ∧ s'.Later s₁' ∧ s₁.errors = s.errors ∧
      s.skipSeparators = s₁.skipSeparators ∧ s'.skipSeparators = s₁'.skipSeparators ∧
        (y = [] ∨ s₁.skipSeparators = s₁ ∧ s₁'.skipSeparators = s₁') := by
  induction x generalizing s s' with
  | nil => exact ⟨[], s, s', h, .refl s, .refl s', rfl, rfl, rfl, .inl rfl⟩
  | cons t x ih =>
    have hsame : s'.atSeparator = s.atSeparator := by
      rw [State.atSeparator, State.atSeparator, h.kind.1, h.kind.2]
    cases hsep : s.atSeparator with
    | true =>
      obtain ⟨y, s₁, s₁', hy, hlater, hlater', herrors, hs₁, hs₁', hend⟩ := ih h.advance
      exact ⟨y, s₁, s₁', hy, (State.Later.advance s).trans hlater,
        (State.Later.advance s').trans hlater', herrors.trans (State.errors_advance s),
        (State.skipSeparators_advance hsep).trans hs₁,
        (State.skipSeparators_advance (hsame.trans hsep)).trans hs₁', hend⟩
    | false =>
      exact ⟨t :: x, s, s', h, .refl s, .refl s', rfl, rfl, rfl,
        .inr ⟨State.skipSeparators_settled hsep, State.skipSeparators_settled (hsame.trans hsep)⟩⟩

/-- Both skip to the same statement, if the texts end alike. -/
theorem synchronizeIn (hclosed : F.closed = true) (h : F.Abreast x s s') (depth : Nat) :
    F.Aligned (s.synchronizeIn depth s.rest) (s'.synchronizeIn depth s'.rest) := by
  induction x generalizing s s' depth with
  -- in a closed frame both texts end here, so both readers stop
  | nil =>
    obtain ⟨-, heof, hstop, -⟩ := F.of_closed hclosed
    have heof' : F.stop'.kind = .eof := by
      rw [hstop]
      exact heof
    refine ⟨[], ?_⟩
    rw [h.rest, h.rest', List.map_nil, List.nil_append, List.nil_append, State.synchronizeIn,
      State.synchronizeIn, heof, heof']
    exact h
  | cons t x ih =>
    -- at each common token both do the same: stay, or go on with the same depth
    have hstay : F.Aligned s s' := ⟨t :: x, h⟩
    have hgo := fun depth => ih h.advance depth
    rw [h.advance.rest, h.advance.rest'] at hgo
    rw [h.rest, h.rest', List.map_cons, List.cons_append, List.cons_append, State.synchronizeIn,
      State.synchronizeIn, show (t.relocate F.move).kind = t.kind from rfl]
    split
    · exact hstay
    all_goals first
      | exact hgo _
      | split
        · exact hstay
        · exact hgo _

end Abreast

namespace Aligned

theorem synchronize (hclosed : F.closed = true) (h : F.Aligned s s') :
    F.Aligned s.synchronize s'.synchronize :=
  let ⟨_, h⟩ := h
  h.synchronizeIn hclosed 0

/-- In a closed frame the next tokens are of the same kind. -/
theorem kind_closed (h : F.Aligned s s') (hclosed : F.closed = true) : s'.kind = s.kind := by
  rw [State.kind, (h.peek_closed hclosed).1]
  rfl

/-- In a closed frame both may take the next token, whatever it is. -/
theorem advance_closed (h : F.Aligned s s') (hclosed : F.closed = true) (hkind : s.kind ≠ .eof) :
    F.Aligned s.advance s'.advance := by
  obtain ⟨_ | ⟨t, x⟩, h⟩ := h
  · rw [State.kind, h.peek_stop.1] at hkind
    exact absurd (F.of_closed hclosed).2.1 hkind
  · exact ⟨x, h.advance⟩

end Aligned

/-! ### Blocks

The loop over statements, which is where the left text may end. -/

section
variable {p q : Parser Expr} {c : TokenKind}

/-- In a closed frame both settle alike behind a statement. -/
theorem settle_closed (hclosed : F.closed = true) (h : F.Aligned s s') :
    F.Aligned (settle c s) (settle c s') := by
  have hkind := h.kind_closed hclosed
  rw [settle, settle, State.atSeparator, State.atSeparator, State.atEnd, State.atEnd, hkind]
  split
  · exact h
  · obtain ⟨herror, hsited⟩ := h.errorHere hclosed .expectedSeparator
    rw [herror]
    exact (h.note hsited).synchronize hclosed

theorem nextStatement_closed (hclosed : F.closed = true) (h : F.Aligned s s') (h₁ : F.Aligned s₁ s₁') :
    F.Aligned (nextStatement c s s₁) (nextStatement c s' s₁') := by
  have hkind := h₁.kind_closed hclosed
  have hcount : s₁'.consumed = s'.consumed ↔ s₁.consumed = s.consumed := by
    obtain ⟨x, h⟩ := h
    obtain ⟨x₁, h₁⟩ := h₁
    rw [h.consumed, h₁.consumed]
    omega
  rw [nextStatement, nextStatement, State.atEnd, State.atEnd, hkind]
  simp only [hcount]
  split
  · rename_i hmove
    refine h₁.advance_closed hclosed fun heof => ?_
    simp [heof] at hmove
  · exact h₁

/-- In an open frame a block goes on only behind a statement that ends properly, and such a statement
has passed a token. -/
theorem settled_open (hopen : F.closed = false) (hsep : s.atSeparator = false)
    (hend : s.atEnd c = false) (hlater : s.Later s₁) (h₁ : F.Aligned s₁ s₁') (before : State)
    (hbefore : before.consumed = s.consumed + F.ahead)
    (hsound : F.Sound (nextStatement c s (settle c s₁))) :
    nextStatement c s (settle c s₁) = s₁ ∧ nextStatement c before (settle c s₁') = s₁' := by
  have hnone : (settle c s₁).errors = [] := by
    rcases hsound with hclosed | hnone
    · rw [hopen] at hclosed
      cases hclosed
    · rwa [errors_nextStatement] at hnone
  have hsettled : (s₁.atSeparator || s₁.atEnd c) = true := by
    by_contra hnot
    rw [settle, if_neg hnot, State.synchronize, State.errors_synchronizeIn] at hnone
    cases hnone
  have hsettled' : (s₁'.atSeparator || s₁'.atEnd c) = true := by
    rcases h₁.kind with hkind | ⟨-, -, hedge⟩
    · rwa [State.atSeparator, State.atEnd, hkind]
    · rcases TokenKind.isEdge_iff.mp hedge with hkind | hkind <;>
        simp [State.atSeparator, State.atEnd, hkind]
  -- a statement that passed no token would stand at the start of a statement, which is not its end
  have hmoved : s₁.consumed ≠ s.consumed := by
    intro hcount
    have hlength : s₁.rest.length = s.rest.length := by
      have hsum := hlater.consumed
      omega
    have hkind : s₁.kind = s.kind := State.kind_eq_of_rest (hlater.rest.eq_of_length hlength)
    rw [State.atSeparator, State.atEnd, hkind, ← State.atSeparator, ← State.atEnd, hsep, hend] at hsettled
    cases hsettled
  have hmoved' : s₁'.consumed ≠ before.consumed := by
    obtain ⟨x, h₁⟩ := h₁
    rw [h₁.consumed, hbefore]
    omega
  rw [settle, if_pos hsettled, settle, if_pos hsettled', nextStatement, nextStatement,
    if_neg (by simp [hmoved]), if_neg (by simp [hmoved'])]
  exact ⟨rfl, rfl⟩

/-- How two blocks end that were read side by side: both at the same closer, or, in an open frame, the
one on the left at the end of its text, which the other one still has to go beyond. -/
inductive Settles (F : Frame) (c : TokenKind) (q : Parser Expr) (read read' : List Expr)
    (rounds' : Nat) (s s' : State) : Reply (List Expr) → Reply (List Expr) → Prop where
  | finish {es : List Expr} {s₁ s₁' : State} (hes : F.trees.sited es) (halign : F.Aligned s₁ s₁')
      (hlater : s.Later s₁) : Settles F c q read read' rounds' s s' (.done (read.reverse ++ es) s₁)
        (.done (read'.reverse ++ Expr.relocateAll F.move es) s₁')
  | halt {es : List Expr} {s₁ s₁' : State} {rounds₁ : Nat} (hopen : F.closed = false)
      (habreast : F.Abreast [] s₁ s₁') (hlater : s.Later s₁)
      (hrounds : rounds' + s'.consumed ≤ rounds₁ + s₁'.consumed) :
      Settles F c q read read' rounds' s s' (.done (read.reverse ++ es) s₁.skipSeparators)
        (block c q rounds₁ ((Expr.relocateAll F.move es).reverse ++ read') s₁')

/-- In a closed frame both loops end with the same statements, moved. -/
theorem Settles.of_closed {read read' : List Expr} {rounds' : Nat} {r r' : Reply (List Expr)}
    (h : Settles F c q read read' rounds' s s' r r') (hclosed : F.closed = true) :
    ∃ es s₁ s₁', r = .done (read.reverse ++ es) s₁ ∧
      r' = .done (read'.reverse ++ Expr.relocateAll F.move es) s₁' ∧ F.trees.sited es ∧
        F.Aligned s₁ s₁' := by
  cases h with
  | finish hes halign _ => exact ⟨_, _, _, rfl, rfl, hes, halign⟩
  | halt hopen => exact absurd (hopen.symm.trans hclosed) Bool.false_ne_true

/-- A round that has read `new` before. -/
theorem Settles.round {read read' new : List Expr} {rounds' : Nat} {r r' : Reply (List Expr)}
    (h : Settles F c q (new.reverse ++ read) ((Expr.relocateAll F.move new).reverse ++ read') rounds'
      s₁ s₁' r r') (hnew : F.trees.sited new) (hlater : s.Later s₁)
    (hmoved : s'.consumed < s₁'.consumed) :
    Settles F c q read read' (rounds' + 1) s s' r r' := by
  cases h with
  | @finish es s₂ s₂' hes halign hlater' =>
    have hfinish : Settles F c q read read' (rounds' + 1) s s' (.done (read.reverse ++ (new ++ es)) s₂)
        (.done (read'.reverse ++ Expr.relocateAll F.move (new ++ es)) s₂') :=
      .finish (List.forall_mem_append.mpr ⟨hnew, hes⟩) halign (hlater.trans hlater')
    simpa [Expr.relocateAll_eq_map] using hfinish
  | @halt es s₂ s₂' rounds₁ hopen habreast hlater' hrounds =>
    have hhalt : Settles F c q read read' (rounds' + 1) s s'
        (.done (read.reverse ++ (new ++ es)) s₂.skipSeparators)
        (block c q rounds₁ ((Expr.relocateAll F.move (new ++ es)).reverse ++ read') s₂') :=
      .halt hopen habreast (hlater.trans hlater') (by omega)
    simpa [Expr.relocateAll_eq_map] using hhalt

/-- A loop over statements first skips separators, so these may be skipped before. -/
theorem block_skip {statement : Parser Expr} {rounds : Nat} {read : List Expr}
    (h : s.skipSeparators = s₁.skipSeparators) :
    block c statement (rounds + 1) read s = block c statement (rounds + 1) read s₁ := by
  rw [block_succ, block_succ, h]

theorem errors_skipSeparators (s : State) : s.skipSeparators.errors = s.errors :=
  let ⟨_, _, hpass, _⟩ := State.Passes.skipSeparators s
  hpass.errors

/-- A block that leaves nothing to complain about was not complained about before. -/
theorem block_sound (hst : ∀ s s', F.At True F.tree s s' p q) : ∀ (rounds : Nat) (read : List Expr)
    (s : State), F.Good (block c p rounds read s) → F.Sound s
  | 0, _, _, hgood => hgood.elim
  | rounds + 1, read, s, hgood => by
      rw [block_succ] at hgood
      split at hgood
      · exact Sound.of_errors hgood (errors_skipSeparators s)
      · have hskip := errors_skipSeparators s
        split at hgood
        · rename_i e s₁ hreply
          have hsound := block_sound hst rounds _ _ hgood
          have hafter : F.Sound s₁ := hsound.of_suffix
            (by rw [errors_nextStatement]; exact suffix_settle c s₁)
          have hbefore := (hst s.skipSeparators s.skipSeparators (by rw [hreply]; exact hafter)).1
          exact hbefore.of_errors hskip
        · rename_i e s₁ hreply
          rcases block_sound hst rounds _ _ hgood with hclosed | hnone
          · exact .inl hclosed
          · rw [errors_nextStatement, State.synchronize, State.errors_synchronizeIn] at hnone
            cases hnone
        · exact hgood.elim

/-- In an open frame the left text ends where the common tokens do. -/
theorem kind_skipSeparators_halt (hopen : F.closed = false) (h : F.Abreast [] s s') :
    s.skipSeparators.kind = .eof := by
  rcases (F.of_open hopen).2.2 with heof | ⟨hnewline, t, r, hbehind, heof⟩
  · have hkind : s.kind = .eof := by rw [State.kind, h.peek_stop.1, heof]
    rw [State.skipSeparators_settled (by simp [State.atSeparator, hkind]), hkind]
  · have hkind : s.kind = .newline := by rw [State.kind, h.peek_stop.1, hnewline]
    obtain ⟨r', hrest, hadvance⟩ := State.rest_of_kind (s := s) (by simp [hkind])
    have hr : s.advance.rest = t :: r := by
      rw [hadvance, ← hbehind]
      exact (List.cons.inj (hrest.symm.trans h.rest)).2
    have hkind' : s.advance.kind = .eof := by rw [State.kind, State.peek_of_rest hr, heof]
    rw [State.skipSeparators_advance (by simp [State.atSeparator, hkind]),
      State.skipSeparators_settled (by simp [State.atSeparator, hkind']), hkind']

/-- One statement of two blocks side by side.  Whatever was read, the next round starts from aligned states. -/
theorem block_round (hst : ∀ s s', F.At True F.tree s s' p q) (halign : F.Aligned s s')
    (hcount : s'.consumed = s.consumed + F.ahead) (hstay : s.skipSeparators = s)
    (hstay' : s'.skipSeparators = s') (hend : s.atEnd c = false) (hend' : s'.atEnd c = false)
    {rounds : Nat} {read : List Expr} (hgood : F.Good (block c p (rounds + 1) read s)) :
    ∃ new after after', F.trees.sited new ∧ s.Later after ∧
      F.Aligned (nextStatement c s after) (nextStatement c s' after') ∧
      block c p (rounds + 1) read s =
        block c p rounds (new.reverse ++ read) (nextStatement c s after) ∧
      ∀ rounds' read', block c q (rounds' + 1) read' s' =
        block c q rounds' ((Expr.relocateAll F.move new).reverse ++ read') (nextStatement c s' after') := by
  have hsep : s.atSeparator = false := by
    obtain ⟨_, -, -, hsep⟩ := State.Passes.skipSeparators s
    rwa [hstay] at hsep
  have hright : ∀ rounds' read', block c q (rounds' + 1) read' s' = _ := fun rounds' read' => by
    rw [block_succ, hstay', hend', if_neg Bool.false_ne_true]
  rw [block_succ, hstay, hend, if_neg Bool.false_ne_true] at hgood ⊢
  cases hreply : p s with
  | starved =>
    rw [hreply] at hgood
    exact hgood.elim
  | done e u =>
    rw [hreply] at hgood
    have hsound := block_sound hst rounds _ _ hgood
    have hu : F.Sound u := hsound.of_suffix (by rw [errors_nextStatement]; exact suffix_settle c u)
    have hanswer := (hst s s' (by rw [hreply]; exact hu)).2 trivial halign
    rw [hreply] at hanswer
    generalize q s' = r' at hanswer hright
    cases hanswer with
    | @done _ _ u' he halign₁ hlater =>
      refine ⟨[e], settle c u, settle c u', List.forall_mem_singleton.mpr he,
        hlater.trans (.settle c u), ?_, rfl, hright⟩
      cases hclosed : F.closed with
      | true => exact nextStatement_closed hclosed halign (settle_closed hclosed halign₁)
      | false =>
        obtain ⟨hleft, hleft'⟩ := settled_open hclosed hsep hend hlater halign₁ s' hcount hsound
        rwa [hleft, hleft']
  | failed e u =>
    rw [hreply] at hgood
    -- a complaint is taken note of, so the frame is not one in which there must be none
    have hclosed : F.closed = true := by
      rcases block_sound hst rounds _ _ hgood with hclosed | hnone
      · exact hclosed
      · rw [errors_nextStatement, State.synchronize, State.errors_synchronizeIn] at hnone
        cases hnone
    have hanswer := (hst s s' (by rw [hreply]; exact hclosed)).2 trivial halign
    rw [hreply] at hanswer
    generalize q s' = r' at hanswer hright
    cases hanswer with
    | failed he halign₁ hlater =>
      exact ⟨[], _, _, List.forall_mem_nil _, (hlater.trans (.note u e)).trans (.synchronizeIn 0 _ _),
        nextStatement_closed hclosed halign ((halign₁.note he).synchronize hclosed), rfl, hright⟩

/-- Behind separators both stand at the same kind of token, unless the text on the left ends there. -/
theorem Abreast.kind_settled {x : List Token} (h : F.Abreast x s s')
    (hstop : ¬ (x = [] ∧ F.closed = false))
    (hend : x = [] ∨ s.skipSeparators = s ∧ s'.skipSeparators = s') :
    s'.kind = s.kind ∧ s.skipSeparators = s ∧ s'.skipSeparators = s' := by
  cases x with
  | nil =>
    have hclosed : F.closed = true := by simpa using hstop
    have heof : s.kind = .eof := by rw [State.kind, h.peek_stop.1, (F.of_closed hclosed).2.1]
    have heof' : s'.kind = s.kind := Aligned.kind_closed ⟨[], h⟩ hclosed
    exact ⟨heof', State.skipSeparators_settled (by simp [State.atSeparator, heof]),
      State.skipSeparators_settled (by simp [State.atSeparator, heof', heof])⟩
  | cons t x => exact ⟨h.kind.2.trans h.kind.1.symm, hend.resolve_left (List.cons_ne_nil t x)⟩

/-- **Blocks side by side**: one round after the other. -/
theorem block_settles (hst : ∀ s s', F.At True F.tree s s' p q) :
    ∀ (rounds rounds' : Nat) (read read' : List Expr) (s s' : State), rounds ≤ rounds' →
      F.Good (block c p rounds read s) → F.Aligned s s' →
        Settles F c q read read' rounds' s s' (block c p rounds read s) (block c q rounds' read' s')
  | 0, _, _, _, _, _, _, hgood, _ => hgood.elim
  | rounds + 1, 0, _, _, _, _, hrounds, _, _ => absurd hrounds (Nat.not_succ_le_zero rounds)
  | rounds + 1, rounds' + 1, read, read', s, s', hrounds, hgood, ⟨x, hx⟩ => by
      obtain ⟨y, t, t', hy, hlater, hlater', herrors, hskip, hskip', hend⟩ := hx.skipSeparators
      have hsum' := hlater'.consumed
      have hlength := hlater'.length_le
      by_cases hstop : y = [] ∧ F.closed = false
      · -- The text on the left ends here.
        obtain ⟨rfl, hopen⟩ := hstop
        have hkind := kind_skipSeparators_halt hopen hy
        rw [block_succ, if_pos (by rw [hskip, State.atEnd, hkind]; simp), hskip, block_skip hskip']
        have hhalt : Settles F c q read read' (rounds' + 1) s s'
            (.done (read.reverse ++ []) t.skipSeparators)
            (block c q (rounds' + 1) ((Expr.relocateAll F.move []).reverse ++ read') t') :=
          .halt hopen hy hlater (by omega)
        simpa [Expr.relocateAll] using hhalt
      have halign : F.Aligned t t' := ⟨y, hy⟩
      obtain ⟨hkind, hstay, hstay'⟩ := hy.kind_settled hstop hend
      have hatEnd : t'.atEnd c = t.atEnd c := by rw [State.atEnd, State.atEnd, hkind]
      rw [block_skip hskip] at hgood ⊢
      rw [block_skip hskip']
      by_cases hdone : t.atEnd c = true
      · rw [block_succ, hstay, if_pos hdone, block_succ, hstay', if_pos (hatEnd.trans hdone)]
        have hfinish : Settles F c q read read' (rounds' + 1) s s' (.done (read.reverse ++ []) t)
            (.done (read'.reverse ++ Expr.relocateAll F.move []) t') :=
          .finish (List.forall_mem_nil _) halign hlater
        simpa [Expr.relocateAll] using hfinish
      rw [Bool.not_eq_true] at hdone
      obtain ⟨new, after, after', hnew, hafter, hnext, hleft, hright⟩ :=
        block_round hst halign hy.consumed hstay hstay' hdone (hatEnd.trans hdone) hgood
      rw [hleft] at hgood ⊢
      rw [hright]
      obtain ⟨hlater₁, hlt⟩ := hafter.nextStatement hdone
      refine (block_settles hst rounds rounds' _ _ _ _ (Nat.le_of_succ_le_succ hrounds) hgood
        hnext).round hnew (hlater.trans hlater₁) ?_
      -- the round has passed a token on the left, and so on the right
      obtain ⟨z, hz⟩ := hnext
      have hcount := hy.consumed
      have hsum := hlater₁.consumed
      rw [hz.consumed]
      omega

/-- A block and its closer: where the text on the left ends inside of the block, the closer is missing. -/
theorem At.block_closer (hst : ∀ s s', F.At True F.tree s s' p q) {fuel fuel' : Nat} (hfuel : fuel ≤ fuel')
    (hc : c.isEdge = false) {cause : GrammarCause} (hpre : pre → s.consumed ≠ 0)
    {k k' : List Expr → Span → Parser β}
    (hk : ∀ body stop s₁ s₁', F.At (pre ∧ F.trees.sited body ∧ F.span.sited stop) W s₁ s₁'
      (k body stop) (k' (F.trees.move body) (F.span.move stop))) :
    F.At pre W s s'
      (block c p fuel [] >>= fun body => Parser.closer F.left c cause >>= fun stop => k body stop)
      (block c q fuel' [] >>= fun body => Parser.closer F.right c cause >>= fun stop => k' body stop) := by
  refine bind_or (V := F.trees) (fun hgood => ⟨block_sound hst fuel [] s hgood, fun _ halign => ?_⟩)
    fun body s₁ s₁' => ?_
  -- the loops settle together, or the left one has come to the end of its text
  · have hsettles := block_settles hst fuel fuel' [] [] s s' hfuel hgood halign
    generalize block c p fuel [] s = r, block c q fuel' [] s' = r' at hsettles
    cases hsettles with
    | finish hes halign₁ hlater => exact .inl (.done hes halign₁ hlater)
    -- there it misses the closing token, so it is no good
    | @halt es s₁ _ _ hopen habreast _ _ =>
      refine .inr ⟨es, _, rfl, fun hgood => ?_⟩
      have hkind : s₁.skipSeparators.kind ≠ c := by
        rw [kind_skipSeparators_halt hopen habreast]
        rintro rfl
        cases hc
      have hfail : (Parser.closer F.left c cause >>= fun stop => k es stop) s₁.skipSeparators =
          .failed (s₁.skipSeparators.errorHere cause) s₁.skipSeparators := by
        show Parser.bind (Parser.closer F.left c cause) (k es) s₁.skipSeparators = _
        rw [Parser.bind, Parser.closer, if_neg hkind, (F.of_open hopen).1]
        rfl
      rw [hfail] at hgood
      exact absurd (hopen.symm.trans hgood) Bool.false_ne_true
  · refine (At.closer hc cause fun hp => ?_).bind fun stop s₂ s₂' => ?_
    · have hmoved := hpre hp.1
      have hle := hp.2.2
      omega
    · exact (hk body stop s₂ s₂').mono fun hp => ⟨hp.1.1, hp.1.2.1, hp.2.1⟩

end

end Frame

end Parser

end Protean
