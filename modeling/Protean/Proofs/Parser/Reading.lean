import Protean.Parser.Program
import Protean.Proofs.Expr.Printed

/-!
# Proofs — Parser — reading token by token

`Parser.Reads p ts tail Q` says that `p`, where the tokens `ts` are followed by `tail`, reads just `ts`,
notes no error and gives something of which `Q` holds.  Where tokens stand makes no difference, so it
goes by their shapes.  A reader that is put together from others reads what these read, one behind the
other (`Reads.bind`).

Below the rules are the readers that read no expressions: strings, decorators, keys and names.

* `State.shapes`, `front`: the shapes of the tokens that are left, and the kind of the first one.
* `Parser.Reads`: the relation, with a rule for every combinator of readers.
* `stringParts_reads`, `decoratorList_reads`, `fieldKey_reads`: the readers without expressions.
-/

namespace Protean

namespace Parser

open Lexer (textShapes)

variable {α β : Type} {ts us tail : List Shape} {t : Shape}

/-! ### Tokens that are left

The shapes of the tokens that a reader has in front of it. -/

/-- The shapes of the tokens that are left. -/
def State.shapes (s : State) : List Shape := s.rest.map Token.shape

/-- The kind of the token in front; behind the last one there is only the end. -/
def front (ts : List Shape) : TokenKind := (ts.head?.map Prod.fst).getD .eof

@[simp] theorem front_cons (t : Shape) (ts : List Shape) : front (t :: ts) = t.1 := rfl

/-- If there are any tokens, it does not depend on what follows them. -/
theorem front_append (h : ts ≠ []) : front (ts ++ us) = front ts := by
  obtain ⟨t, rest, rfl⟩ := List.exists_cons_of_ne_nil h
  rfl

namespace State

variable {s : State}

/-- The next token of a reader is the first one of those that are left. -/
theorem kind_eq_front (s : State) : s.kind = front s.shapes := by
  rw [kind, peek, front, shapes]
  cases s.rest <;> rfl

theorem peek_shape (h : s.shapes = t :: ts) : s.peek.shape = t := by
  obtain ⟨token, r, hrest, hshape, -⟩ := List.map_eq_cons_iff.mp h
  rw [peek, hrest]
  exact hshape

theorem kind_eq (h : s.shapes = t :: ts) : s.peek.kind = t.1 := by
  rw [← peek_shape h]
  rfl

theorem lexeme_eq (h : s.shapes = t :: ts) : s.peek.lexeme = t.2 := by
  rw [← peek_shape h]
  rfl

/-- To take a token leaves the others and notes no error. -/
theorem advance_spec (h : s.shapes = t :: ts) (ht : t.1 ≠ .eof) : s.advance.shapes = ts ∧
    s.advance.errors = s.errors ∧ s.advance.consumed = s.consumed + 1 := by
  obtain ⟨token, r, hrest, rfl, htail⟩ := List.map_eq_cons_iff.mp h
  have hadvance : s.advance = ⟨r, s.consumed + 1, token.span.stop, s.errors⟩ := by
    rw [advance, hrest]
    exact if_neg ht
  rw [hadvance]
  exact ⟨htail, rfl, rfl⟩

/-- To take several tokens leaves the others and notes no error. -/
theorem advanceBy_spec (h : s.shapes = ts ++ tail) (hts : ∀ t ∈ ts, t.1 ≠ .eof) :
    (s.advanceBy ts.length).shapes = tail ∧ (s.advanceBy ts.length).errors = s.errors ∧
      (s.advanceBy ts.length).consumed = s.consumed + ts.length := by
  induction ts generalizing s with
  | nil => exact ⟨h, rfl, rfl⟩
  | cons t ts ih =>
    obtain ⟨ht, hts⟩ := List.forall_mem_cons.mp hts
    obtain ⟨hshapes, herrors, hconsumed⟩ := advance_spec h ht
    obtain ⟨hshapes', herrors', hconsumed'⟩ := ih hshapes hts
    rw [List.length_cons, advanceBy]
    exact ⟨hshapes', herrors'.trans herrors, by omega⟩

end State

/-! ### Items between commas

The tokens of names, arguments and decorators, with commas between them. -/

/-- Items with commas between them start like the first one. -/
theorem front_separated {item : List Shape} (hitem : item ≠ []) (items : List (List Shape)) :
    front (separated (item :: items) ++ us) = front item := by
  obtain ⟨t, rest, rfl⟩ := List.exists_cons_of_ne_nil hitem
  cases items <;> rfl

/-- One of several items has no more tokens than all of them. -/
theorem length_le_separated {item : List Shape} {items : List (List Shape)} (h : item ∈ items) :
    item.length ≤ (separated items).length := by
  induction items with
  | nil => cases h
  | cons first items ih =>
    cases items with
    | nil =>
      obtain rfl := List.mem_singleton.mp h
      exact Nat.le_refl _
    | cons second items =>
      rw [separated, List.length_append, List.length_cons]
      rcases List.mem_cons.mp h with rfl | h
      · omega
      · have hle := ih h
        omega

/-- Items that are not empty are at least as many tokens. -/
theorem count_le_separated {items : List (List Shape)} (h : ∀ item ∈ items, item ≠ []) :
    items.length ≤ (separated items).length := by
  induction items with
  | nil => exact Nat.le_refl _
  | cons first items ih =>
    obtain ⟨hfirst, hitems⟩ := List.forall_mem_cons.mp h
    have hpos := List.length_pos_iff.mpr hfirst
    have hle := ih hitems
    cases items with
    | nil => exact hpos
    | cons second items =>
      simp only [separated, List.length_append, List.length_cons] at hle ⊢
      omega

/-! ### Rules

A rule for every combinator of readers. -/

/-- `p` reads the tokens `ts` in front of `tail`, and what it gives satisfies `Q`. -/
def Reads (p : Parser α) (ts tail : List Shape) (Q : α → Prop) : Prop :=
  ∀ s : State, s.shapes = ts ++ tail → ∃ a s', p s = .done a s' ∧ s'.shapes = tail ∧
    s'.errors = s.errors ∧ s'.consumed = s.consumed + ts.length ∧ Q a

/-- Readers one behind the other can be regrouped. -/
theorem bind_assoc {γ : Type} (p : Parser α) (f : α → Parser β) (g : β → Parser γ) :
    (p >>= f) >>= g = p >>= fun a => f a >>= g := by
  funext s
  show Parser.bind (Parser.bind p f) g s = Parser.bind p (fun a => Parser.bind (f a) g) s
  rw [Parser.bind, Parser.bind, Parser.bind]
  cases p s <;> rfl

namespace Reads

variable {P : α → Prop} {Q : β → Prop} {f : α → Parser β}

theorem pure {Q : α → Prop} {a : α} (ha : Q a) : Reads (Parser.pure a) [] tail Q :=
  fun s hs => ⟨a, s, rfl, hs, rfl, rfl, ha⟩

/-- What two readers read, one behind the other. -/
theorem bind {p : Parser α} (hp : Reads p ts (us ++ tail) P)
    (hf : ∀ a, P a → Reads (f a) us tail Q) : Reads (p >>= f) (ts ++ us) tail Q := by
  intro s hs
  obtain ⟨a, s₁, hread, hshapes, herrors, hconsumed, ha⟩ := hp s (by rw [hs, List.append_assoc])
  obtain ⟨b, s₂, hread', hshapes', herrors', hconsumed', hb⟩ := hf a ha s₁ hshapes
  refine ⟨b, s₂, ?_, hshapes', herrors'.trans herrors, ?_, hb⟩
  · show Parser.bind p f s = _
    rw [Parser.bind, hread]
    exact hread'
  · rw [hconsumed', hconsumed, List.length_append, Nat.add_assoc]

/-- The first of the two reads a single token. -/
theorem cons {p : Parser α} (hp : Reads p [t] (us ++ tail) P)
    (hf : ∀ a, P a → Reads (f a) us tail Q) : Reads (p >>= f) (t :: us) tail Q := bind hp hf

/-- A reader that reads nothing more behind `p`. -/
theorem map {p : Parser α} (hp : Reads p ts tail P) (hf : ∀ a, P a → Reads (f a) [] tail Q) :
    Reads (p >>= f) ts tail Q := by
  rw [← List.append_nil ts]
  exact bind hp hf

/-- What is read may be known to be more than is asked for. -/
theorem weaken {p : Parser α} {Q : α → Prop} (hp : Reads p ts tail P) (h : ∀ a, P a → Q a) :
    Reads p ts tail Q := by
  intro s hs
  obtain ⟨a, s', hread, hshapes, herrors, hconsumed, ha⟩ := hp s hs
  exact ⟨a, s', hread, hshapes, herrors, hconsumed, h a ha⟩

/-- A reader that looks at the state sees the tokens that are left. -/
theorem state {f : State → Parser β}
    (h : ∀ s : State, s.shapes = ts ++ tail → Reads (f s) ts tail Q) :
    Reads (Parser.state >>= f) ts tail Q := fun s hs => h s hs s hs

/-- A reader that passes the next token when this has the right kind. -/
theorem taking {p : Parser α} {value : State → α}
    (hp : ∀ s : State, s.kind = t.1 → p s = .done (value s) s.advance) (ht : t.1 ≠ .eof)
    (h : ∀ s : State, s.peek.shape = t → Reads (f (value s)) ts tail Q) :
    Reads (p >>= f) (t :: ts) tail Q := by
  intro s hs
  obtain ⟨hshapes, herrors, hconsumed⟩ := State.advance_spec hs ht
  obtain ⟨b, s', hread, hshapes', herrors', hconsumed', hb⟩ := h s (State.peek_shape hs) _ hshapes
  refine ⟨b, s', ?_, hshapes', herrors'.trans herrors, ?_, hb⟩
  · show Parser.bind p f s = _
    rw [Parser.bind, hp s (State.kind_eq hs)]
    exact hread
  · rw [hconsumed', hconsumed, List.length_cons]
    omega

theorem next {f : Token → Parser β} (ht : t.1 ≠ .eof)
    (h : ∀ token : Token, token.shape = t → Reads (f token) ts tail Q) :
    Reads (Parser.next >>= f) (t :: ts) tail Q :=
  taking (fun _ _ => rfl) ht fun s => h s.peek

/-- A reader that expects a token finds it. -/
theorem expect {kind : TokenKind} {cause : GrammarCause} {f : Token → Parser β} (hkind : t.1 = kind)
    (ht : kind ≠ .eof) (h : ∀ token : Token, token.shape = t → Reads (f token) ts tail Q) :
    Reads (Parser.expect kind cause >>= f) (t :: ts) tail Q :=
  taking (fun _ hs => if_pos (hs.trans hkind)) (hkind ▸ ht) fun s => h s.peek

/-- A reader that expects a closing delimiter finds it. -/
theorem closer {policy : Policy} {kind : TokenKind} {cause : GrammarCause} {f : Span → Parser β}
    (hkind : t.1 = kind) (ht : kind ≠ .eof) (h : ∀ span, Reads (f span) ts tail Q) :
    Reads (Parser.closer policy kind cause >>= f) (t :: ts) tail Q :=
  taking (fun _ hs => if_pos (hs.trans hkind)) (hkind ▸ ht) fun s _ => h s.peek.span

/-- A reader that looks for a token finds it. -/
theorem accept {kind : TokenKind} {f : Bool → Parser β} (hkind : t.1 = kind) (ht : kind ≠ .eof)
    (h : Reads (f true) ts tail Q) : Reads (Parser.accept kind >>= f) (t :: ts) tail Q :=
  taking (fun _ hs => if_pos (hs.trans hkind)) (hkind ▸ ht) fun _ _ => h

/-- A token that is not there is not passed. -/
theorem decline {kind : TokenKind} {f : Bool → Parser β} (hkind : front (ts ++ tail) ≠ kind)
    (h : Reads (f false) ts tail Q) : Reads (Parser.accept kind >>= f) ts tail Q := by
  intro s hs
  have hdecline : Parser.accept kind s = .done false s :=
    if_neg (by rw [State.kind_eq_front, hs]; exact hkind)
  obtain ⟨b, s', hread, hrest⟩ := h s hs
  refine ⟨b, s', ?_, hrest⟩
  show Parser.bind (Parser.accept kind) f s = _
  rw [Parser.bind, hdecline]
  exact hread

/-- A reader that passes over tokens which it has looked at before. -/
theorem pass (hts : ∀ t ∈ ts, t.1 ≠ .eof) :
    Reads (Parser.pass ts.length) ts tail fun _ => True := by
  intro s hs
  obtain ⟨hshapes, herrors, hconsumed⟩ := State.advanceBy_spec hs hts
  exact ⟨(), _, rfl, hshapes, herrors, hconsumed, trivial⟩

end Reads

/-! ### Strings

A text is read as what it was printed from. -/

/-- Behind its opening quote, a text is its closing quote, with one piece of content in front of it if there is
any. -/
theorem textShapes_cases (text : String) :
    (text = "" ∧ (textShapes text).tail = [(.stringEnd, "\"")]) ∨
      (textShapes text).tail = [(.stringContent, text), (.stringEnd, "\"")] := by
  by_cases htext : text.toList = []
  · exact .inl ⟨String.toList_injective htext, by simp [textShapes, htext]⟩
  · exact .inr (by simp [textShapes, htext])

/-- The content of a string and its end. -/
theorem plainText_reads {fuel : Nat} (hfuel : 2 ≤ fuel) (text : String) :
    Reads (plainText fuel "") (textShapes text).tail tail (· = text) := by
  have hend : ∀ n read, Reads (plainText (n + 1) read) [(.stringEnd, "\"")] tail (· = read) := by
    intro n read
    refine .state fun s hs => ?_
    have hkind : s.kind = .stringEnd := State.kind_eq hs
    rw [hkind, if_neg (by decide), if_neg (by decide)]
    exact .expect rfl (by decide) fun _ _ => .pure rfl
  obtain ⟨n, rfl⟩ := Nat.exists_eq_add_of_le' hfuel
  rcases textShapes_cases text with ⟨rfl, hshapes⟩ | hshapes
  · rw [hshapes]
    exact hend (n + 1) ""
  · rw [hshapes]
    refine .state fun s hs => ?_
    have hkind : s.kind = .stringContent := State.kind_eq hs
    rw [hkind, if_pos rfl]
    refine .next (by simp) fun token htoken => ?_
    have hlexeme : "" ++ token.lexeme = text := by
      rw [String.empty_append]
      exact congrArg Prod.snd htoken
    rw [hlexeme]
    exact hend n text

/-- A text is read as the text that it was printed from. -/
theorem stringParts_reads {operand : Parser Expr} {fuel : Nat} (hfuel : 2 ≤ fuel) (text : String) :
    Reads (stringParts .strict operand fuel ⟨[], "", none⟩) (textShapes text).tail tail
      fun r => r.1.parts = [] ∧ r.1.text = text := by
  have hend : ∀ n p, Reads (stringParts .strict operand (n + 1) p) [(.stringEnd, "\"")] tail
      (·.1 = p) := by
    intro n p
    refine .state fun s hs => ?_
    have hkind : s.kind = .stringEnd := State.kind_eq hs
    simp only [hkind]
    exact .next (by simp) fun _ _ => .pure rfl
  obtain ⟨n, rfl⟩ := Nat.exists_eq_add_of_le' hfuel
  rcases textShapes_cases text with ⟨rfl, hshapes⟩ | hshapes
  · rw [hshapes]
    exact (hend (n + 1) _).weaken fun r hr => hr ▸ ⟨rfl, rfl⟩
  · rw [hshapes]
    refine .state fun s hs => ?_
    have hkind : s.kind = .stringContent := State.kind_eq hs
    simp only [hkind]
    refine .next (by simp) fun token htoken => ?_
    refine (hend n _).weaken fun r hr => hr ▸ ⟨rfl, ?_⟩
    rw [Pieces.addText, String.empty_append]
    exact congrArg Prod.snd htoken

/-- A string without interpolations is a literal. -/
theorem string_reads {operand : Parser Expr} {fuel : Nat} (hfuel : 2 ≤ fuel) (text : String) :
    Reads (string .strict fuel operand) (textShapes text) tail
      fun e => ∃ a, e = .literal a (.string text) := by
  refine .next (by simp) fun quote _ => ?_
  refine .map (stringParts_reads hfuel text) fun r hr => .pure ?_
  obtain ⟨hparts, htext⟩ := hr
  rw [Pieces.build, hparts]
  exact ⟨_, congrArg _ (congrArg _ htext)⟩

/-! ### Decorators

The decorators of a function are read in their order. -/

/-- A mark under a new name is the last one. -/
theorem put_of_not_mem {name : String} {text : Option String} {read : Decorators}
    (h : name ∉ read.map Prod.fst) : read.put name text = read ++ [(name, text)] := by
  induction read with
  | nil => rfl
  | cons d read ih =>
    rw [List.map_cons, List.mem_cons, not_or] at h
    rw [Decorators.put, if_neg (Ne.symm h.1), ih h.2, List.cons_append]

/-- One decorator, and what is read behind it. -/
theorem decorator_reads {fuel rounds : Nat} (hfuel : 2 ≤ fuel) {d : String × Option String}
    {read : Decorators} {Q : Decorators → Prop} (hd : d.1 ∉ read.map Prod.fst)
    (hfront : front (ts ++ tail) ≠ .assign)
    (h : Reads (do
      let more ← accept .comma
      if more then decoratorList fuel rounds (read ++ [d]) else return read ++ [d]) ts tail Q) :
    Reads (decoratorList fuel (rounds + 1) read) (Decorators.oneShapes d ++ ts) tail Q := by
  obtain ⟨name, _ | text⟩ := d
  · refine .expect rfl (by decide) fun token htoken => .decline hfront ?_
    have hput : read.put token.lexeme none = read ++ [(name, none)] := by
      rw [show token.lexeme = name from congrArg Prod.snd htoken]
      exact put_of_not_mem hd
    rw [← hput] at h
    exact h
  · refine .expect rfl (by decide) fun token htoken => .accept rfl (by decide) ?_
    refine .expect rfl (by decide) fun _ _ => ?_
    refine .bind (plainText_reads hfuel text) fun read' hread' => ?_
    have hput : read.put token.lexeme (some read') = read ++ [(name, some text)] := by
      rw [hread', show token.lexeme = name from congrArg Prod.snd htoken]
      exact put_of_not_mem hd
    rw [← hput] at h
    exact h

/-- Decorators are read as they were printed, since no name comes twice among them. -/
theorem decoratorList_reads {fuel rounds : Nat} (hfuel : 2 ≤ fuel) {d : String × Option String}
    {ds read : Decorators} (hrounds : ds.length < rounds)
    (hnodup : ((read ++ d :: ds).map Prod.fst).Nodup) (htail : front tail = .rightBracket) :
    Reads (decoratorList fuel rounds read) (separated ((d :: ds).map Decorators.oneShapes)) tail
      (· = read ++ d :: ds) := by
  induction rounds generalizing d ds read with
  | zero => exact absurd hrounds (Nat.not_lt_zero _)
  | succ rounds ih =>
    -- the name has not been read before, so the mark is added behind the others
    have hd : d.1 ∉ read.map Prod.fst := by
      rw [List.map_append, List.nodup_append] at hnodup
      exact fun hmem => hnodup.2.2 _ hmem _ List.mem_cons_self rfl
    cases ds with
    | nil =>
      rw [← List.append_nil (separated _)]
      refine decorator_reads hfuel hd ?_ (.decline ?_ (.pure rfl))
      · rw [List.nil_append, htail]
        decide
      · rw [List.nil_append, htail]
        decide
    | cons next ds =>
      have hassoc : read ++ d :: next :: ds = (read ++ [d]) ++ next :: ds := by
        simp
      rw [hassoc] at hnodup ⊢
      exact decorator_reads hfuel hd (by simp)
        (.accept rfl (by decide) (ih (Nat.lt_of_succ_lt_succ hrounds) hnodup))

/-- The decorators of a function, in front of its brace. -/
theorem decorators_reads {fuel : Nat} {marks : Decorators} (hmarks : marks.Writable)
    (hfuel : marks.shapes.length < fuel) (htail : front tail = .leftBrace) :
    Reads (decorators .strict fuel) marks.shapes tail (· = marks) := by
  cases marks with
  | nil =>
    refine .decline ?_ (.pure rfl)
    rw [Decorators.shapes, List.nil_append, htail]
    decide
  | cons d ds =>
    have hshapes : Decorators.shapes (d :: ds) = (.leftBracket, "[") ::
        (separated ((d :: ds).map Decorators.oneShapes) ++ [(.rightBracket, "]")]) := rfl
    rw [hshapes] at hfuel ⊢
    refine .accept rfl (by decide) (.state fun s hs => ?_)
    -- each decorator has tokens, so the fuel is enough for all of them
    have hitems : ∀ item ∈ (d :: ds).map Decorators.oneShapes, item ≠ [] := by
      rw [List.forall_mem_map]
      rintro ⟨name, _ | text⟩ - <;> simp [Decorators.oneShapes]
    have hkind : s.kind ≠ .rightBracket := by
      rw [State.kind_eq_front, hs, List.map_cons, List.append_assoc,
        front_separated (hitems _ List.mem_cons_self)]
      rcases d with ⟨name, _ | text⟩ <;> simp [Decorators.oneShapes]
    have hcount := count_le_separated hitems
    simp only [List.length_map, List.length_append, List.length_cons] at hcount hfuel
    rw [if_neg hkind]
    refine .bind (decoratorList_reads (by omega) (by omega) hmarks.2 rfl) fun read hread => ?_
    exact .closer rfl (by decide) fun _ => .pure hread

/-! ### Keys and names

Indices and names behind a dot. -/

/-- A name is printed as a name or as an operator. -/
theorem nameShape_kind (name : String) :
    (nameShape name).1 = .identifier ∨ (nameShape name).1 = .operator := by
  rw [nameShape]
  split
  · exact .inl rfl
  · exact .inr rfl

theorem nameShape_ne {kind : TokenKind} (name : String) (hidentifier : kind ≠ .identifier)
    (hoperator : kind ≠ .operator) : (nameShape name).1 ≠ kind := by
  rcases nameShape_kind name with hname | hname <;> rw [hname]
  · exact hidentifier.symm
  · exact hoperator.symm

/-- An index is read as it was printed. -/
theorem readIndex?_toString {n : Nat} (hn : n < Number.indexLimit) :
    Number.readIndex? (toString n) = some n := by
  have hvalue : Number.natOfDigits (Nat.toDigits 10 n) = n := by
    conv_rhs => rw [← Nat.ofDigitChars_ten_toDigits (n := n), Nat.ofDigitChars_eq_foldl]
    rfl
  have hdigits : (Nat.toDigits 10 n).all Char.isDigit = true :=
    List.all_eq_true.mpr fun c hc => Nat.isDigit_of_mem_toDigits (by decide) (by decide) hc
  rw [Number.readIndex?, Nat.toString_eq_repr, Nat.toList_repr, hvalue]
  exact if_pos ⟨Nat.toDigits_ne_nil, hdigits, hn⟩

/-- The key of a field is read as it was printed. -/
theorem fieldKey_reads {key : Key} (hkey : key.Writable) (dot : Span) :
    Reads (fieldKey .strict dot) [key.shape] tail (·.1 = key) := by
  refine .state fun s hs => ?_
  have hlexeme := State.lexeme_eq hs
  cases key with
  | name text =>
    have hread : Reads (do
        let _ ← next
        return (Key.name s.peek.lexeme, s.peek.span)) [nameShape text] tail (·.1 = .name text) :=
      .next (nameShape_ne text (by decide) (by decide)) fun _ _ => .pure (congrArg Key.name hlexeme)
    have hkind : s.peek.kind = (nameShape text).1 := State.kind_eq hs
    rcases nameShape_kind text with hname | hname
    · simp only [hkind, hname]
      exact hread
    · simp only [hkind, hname]
      exact hread
  | index n =>
    have hkind : s.peek.kind = .number := State.kind_eq hs
    simp only [hkind]
    refine .next (by simp [Key.shape]) fun _ _ => ?_
    rw [hlexeme, Key.shape, readIndex?_toString hkey]
    exact .pure rfl

/-- The names of a destructuring assignment are seen ahead. -/
theorem destructuredNames_shapes {names : List String} (hnames : names ≠ []) {tokens : List Token}
    (h : tokens.map Token.shape = separated (names.map fun name => [(.identifier, name)]) ++
      (.rightParen, ")") :: (.assign, "=") :: ts) : destructuredNames tokens = some names := by
  induction names generalizing tokens with
  | nil => exact absurd rfl hnames
  | cons name names ih =>
    cases names with
    | nil =>
      obtain ⟨token, r, rfl, hname, h⟩ := List.map_eq_cons_iff.mp h
      obtain ⟨mark, r, rfl, hmark, h⟩ := List.map_eq_cons_iff.mp h
      obtain ⟨equals, r, rfl, hequals, -⟩ := List.map_eq_cons_iff.mp h
      obtain ⟨hkind, hlexeme⟩ := Prod.mk.inj hname
      have hmark : mark.kind = .rightParen := congrArg Prod.fst hmark
      have hequals : equals.kind = .assign := congrArg Prod.fst hequals
      simp [destructuredNames, hkind, hlexeme, hmark, hequals]
    | cons next names =>
      obtain ⟨token, r, rfl, hname, h⟩ := List.map_eq_cons_iff.mp h
      obtain ⟨mark, r, rfl, hmark, h⟩ := List.map_eq_cons_iff.mp h
      obtain ⟨hkind, hlexeme⟩ := Prod.mk.inj hname
      have hmark : mark.kind = .comma := congrArg Prod.fst hmark
      simp [destructuredNames, hkind, hlexeme, hmark, ih (List.cons_ne_nil _ _) h]

end Parser

end Protean
