import Protean.Proofs.Parser.Parallel
import Protean.Proofs.Token.Numeral

/-!
# Proofs — Parser — readers and places

No reader looks at where a token stands: spans are copied from tokens into nodes and errors, and joined.
So every reader gives the same on tokens that have been moved, moved likewise, and no span it makes
reaches beyond the tokens it was made from.  This is `Frame.At` for every reader of the language, from
the innermost to operations.

* `Frame.assignment_at` … `Frame.operation_at`: the readers of the language, one lemma for each.
* `Frame.pieces`, `Frame.build_move`, `Frame.build_sited`: strings are put together alike on both sides.
* `Frame.isEdge_of_names`, `Frame.isEdge_of_atName`, …: where readers look ahead, they do not look beyond the common
  tokens.
-/

namespace Protean

namespace Parser

/-! ### Parts of strings

How a string is put together from its text and its interpolations. -/

namespace Pieces

variable {p : Pieces} {span stop : Span}

/-- All parts of a string that ends at an offset, the last one first. -/
def allParts (p : Pieces) (offset : Nat) : List Expr :=
  if p.text.isEmpty then p.parts else p.textPart offset :: p.parts

/-- The parts of a string with interpolations have a first one. -/
theorem exists_allParts (hp : p.parts ≠ []) (offset : Nat) :
    ∃ first others, (p.allParts offset).reverse = first :: others := by
  refine List.exists_cons_of_ne_nil (mt List.reverse_eq_nil_iff.mp ?_)
  rw [allParts]
  split
  · exact hp
  · exact List.cons_ne_nil _ _

theorem build_nil (hp : p.parts = []) :
    p.build span stop = .literal (.placed span) (.string p.text) := by
  rw [build, hp]

/-- A string with interpolations is its parts, joined. -/
theorem build_cons (hp : p.parts ≠ []) {first : Expr} {others : List Expr}
    (hall : (p.allParts stop.start).reverse = first :: others) :
    p.build span stop = joinParts span first others := by
  unfold build
  split
  · exact absurd ‹_› hp
  · rw [allParts] at hall
    dsimp only
    rw [hall]

end Pieces

namespace Frame

/-- Both readers read the same expressions. -/
abbrev Reads (F : Frame) (p q : Parser Expr) : Prop := ∀ s s', F.At True F.tree s s' p q

variable {F : Frame} {pre : Prop} {p q : Parser Expr} {s s' : State} {fuel fuel' : Nat}

/-! ### Assignments

Assignments and destructuring assignments, and expressions. -/

/-- Whether something can be assigned to does not depend on places. -/
theorem assignment_at {lhs value : Expr} {equals : Span}
    (hpre : pre → F.tree.sited lhs ∧ F.tree.sited value ∧ equals.Sited F.site) :
    F.At pre F.tree s s' (assignment F.left lhs value equals)
      (assignment F.right (lhs.relocate F.move) (value.relocate F.move) (equals.relocate F.move)) := by
  -- the assignment reaches from its target to its value, wherever they stand
  have hanchor : Anchor.placed (((lhs.relocate F.move).spanOr (equals.relocate F.move)).cover
      ((value.relocate F.move).spanOr (equals.relocate F.move))) =
        (Anchor.placed ((lhs.spanOr equals).cover (value.spanOr equals))).relocate F.move := by
    rw [Expr.spanOr_relocate, Expr.spanOr_relocate, ← Span.relocate_cover F.mono]
    rfl
  have hcover : pre → ((lhs.spanOr equals).cover (value.spanOr equals)).Sited F.site := fun hp =>
    ((hpre hp).1.node.spanOr equals).cover ((hpre hp).2.1.node.spanOr equals)
  -- what cannot be assigned to is an error at the sign of assignment
  have hinvalid : F.At pre F.tree s s' (Parser.recover F.left ⟨.invalidTarget, equals⟩ value)
      (Parser.recover F.right ⟨.invalidTarget, equals.relocate F.move⟩ (value.relocate F.move)) :=
    .recover fun hp _ _ => ⟨⟨rfl, (hpre hp).2.2⟩, rfl, (hpre hp).2.1⟩
  unfold assignment
  dsimp only
  rw [hanchor]
  cases lhs with
  | identifier a name =>
    rw [Expr.relocate]
    refine .pure (fun _ => ?_) fun hp => .bind ⟨⟨_, rfl, hcover hp⟩, ?_⟩ (hpre hp).2.1
    · rw [tree_move, Expr.relocate]
      rfl
    · exact (hpre hp).1.node.span
  | field a target key keySpan =>
    rw [Expr.relocate]
    refine .pure (fun _ => by rw [tree_move, Expr.relocate]) fun hp => ?_
    cases (hpre hp).1 with
    | field hnode htarget => exact .store ⟨⟨_, rfl, hcover hp⟩, hnode.nameSpan⟩ htarget (hpre hp).2.1
  | _ =>
    rw [Expr.relocate]
    exact hinvalid

/-- Where a line ends there is no name. -/
theorem destructuredNames_edge_front {z : Token} (hz : z.kind.isEdge = true) (r : List Token) :
    destructuredNames (z :: r) = none := by
  cases r with
  | nil =>
    rw [destructuredNames]
    intro _ _ _ h
    cases h
  | cons m r => rw [destructuredNames, if_neg (TokenKind.ne_of_isEdge hz rfl)]

/-- Names are not closed where a line ends behind one of them. -/
theorem destructuredNames_edge_behind {z : Token} (hz : z.kind.isEdge = true) (t : Token)
    (r : List Token) : destructuredNames (t :: z :: r) = none := by
  rw [destructuredNames]
  split
  · split
    · exact absurd ‹_› (TokenKind.ne_of_isEdge hz rfl)
    · exact absurd ‹_› (TokenKind.ne_of_isEdge hz rfl)
    · rfl
  · rfl

/-- Looking ahead for names does not look beyond the end of a line. -/
theorem destructuredNames_edge {z z' : Token} (hz : z.kind.isEdge = true) (hz' : z'.kind.isEdge = true)
    (r r' : List Token) (f : Nat → Nat) : ∀ x : List Token,
      destructuredNames (x.map (Token.relocate f) ++ z' :: r') = destructuredNames (x ++ z :: r)
  | [] => (destructuredNames_edge_front hz' r').trans (destructuredNames_edge_front hz r).symm
  | [t] => (destructuredNames_edge_behind hz' _ r').trans (destructuredNames_edge_behind hz t r).symm
  | t :: m :: x => by
      have hhead : ((x.map (Token.relocate f) ++ z' :: r').head?.map Token.kind = some .assign) ↔
          ((x ++ z :: r).head?.map Token.kind = some .assign) := by
        cases x with
        | nil =>
          simp only [List.map_nil, List.nil_append, List.head?_cons, Option.map_some, Option.some.injEq]
          exact iff_of_false (TokenKind.ne_of_isEdge hz' rfl) (TokenKind.ne_of_isEdge hz rfl)
        | cons u x => exact Iff.rfl
      simp only [List.map_cons, List.cons_append, destructuredNames, Token.relocate,
        destructuredNames_edge hz hz' r r' f x, hhead]

/-- Both readers see a destructuring assignment, or neither does. -/
theorem Aligned.destructuring (h : F.Aligned s s') : s'.destructuring? = s.destructuring? := by
  obtain ⟨_ | ⟨t, x⟩, h⟩ := h
  · have hnone : ∀ {s : State}, s.kind.isEdge = true → s.destructuring? = none := by
      intro s hkind
      rw [State.destructuring?, if_neg (TokenKind.ne_of_isEdge hkind rfl)]
    rw [hnone, hnone]
    · rw [State.kind, h.peek_stop.1, F.stop_isEdge.1]
    · rw [State.kind, h.peek_stop.2, F.stop_isEdge.2]
  · rw [State.destructuring?, State.destructuring?, h.kind.1, h.kind.2, h.rest, h.rest']
    simp only [List.map_cons, List.cons_append, List.tail_cons,
      destructuredNames_edge F.stop_isEdge.1 F.stop_isEdge.2 F.behind F.behind' F.move x]

/-- Both pass tokens at which no line ends. -/
theorem Aligned.advanceBy {ts us : List Token} (h : F.Aligned s s') (hrest : s.rest = ts ++ us)
    (hts : ∀ t ∈ ts, t.kind.isEdge = false) :
    F.Aligned (s.advanceBy ts.length) (s'.advanceBy ts.length) := by
  induction ts generalizing s s' with
  | nil => exact h
  | cons t ts ih =>
    obtain ⟨ht, hts⟩ := List.forall_mem_cons.mp hts
    have hkind : s.kind.isEdge = false := by rwa [State.kind, State.peek_of_rest hrest]
    have hpass : s.Passes [s.peek] s.advance := .advance (TokenKind.ne_of_isEdge rfl hkind).symm
    have hr : s.advance.rest = ts ++ us := (List.cons.inj (hpass.rest.symm.trans hrest)).2
    exact ih (h.advance hkind).2.2 hr hts

/-- Readers that pass tokens they have looked at. -/
theorem At.pass {α : Type} {V : View α} {k k' : Unit → Parser α} {ts us : List Token}
    (hrest : s.rest = ts ++ us) (hts : ∀ t ∈ ts, t.kind.isEdge = false)
    (h : F.At pre V (s.advanceBy ts.length) (s'.advanceBy ts.length) (k ()) (k' ())) :
    F.At pre V s s' (Parser.pass ts.length >>= k) (Parser.pass ts.length >>= k') := by
  have hpass : s.Passes ts (s.advanceBy ts.length) := by
    exact .advanceBy hrest fun t ht => (TokenKind.ne_of_isEdge rfl (hts t ht)).symm
  have hleft : (Parser.pass ts.length >>= k) s = k () (s.advanceBy ts.length) := rfl
  have hright : F.Aligned s s' → (Parser.pass ts.length >>= k') s' = k' () (s'.advanceBy ts.length) :=
    fun _ => rfl
  exact .step hleft hright (fun halign => halign.advanceBy hrest hts) (.advanceBy _ _) hpass.errors
    (h.mono And.left)

/-- The names of such an assignment are common tokens. -/
theorem isEdge_of_names {ts : List Token} {names : List String} (h : Grammar.Names ts names) :
    ∀ t ∈ ts, t.kind.isEdge = false := by
  induction h with
  | last hname hclose => simp [hname, hclose, TokenKind.isEdge]
  | more hname hcomma _ ih => simpa [hname, hcomma, TokenKind.isEdge] using ih

theorem destructuring_at (ho : F.Reads p q) {names : List String} (hnames : s.destructuring? = some names) :
    F.At True F.tree s s' (destructuring p names) (destructuring q names) := by
  rw [State.destructuring?] at hnames
  split at hnames
  · rename_i hkind
    -- the names, the commas and the sign of assignment are all in front of the reader, so it may pass over them
    obtain ⟨us, equals, vs, hrest, hus, hequals⟩ := Grammar.destructuredNames_eq_some.mp hnames
    have hopen : s.kind.isEdge = false := by rw [hkind]; rfl
    have hpass : s.Passes [s.peek] s.advance := .advance (by simp [hkind])
    rw [hpass.rest] at hrest
    have hrest : s.advance.rest = us ++ equals :: vs := hrest
    have hcount : us.length = 2 * names.length := hus.length_eq
    have hpass' : s.advance.Passes us (s.advance.advanceBy us.length) := .advanceBy hrest hus.ne_eof
    have hpeek : (s.advance.advanceBy us.length).peek = equals :=
      State.peek_of_rest (List.append_cancel_left (hpass'.rest.symm.trans hrest))
    have hassign : (s.advance.advanceBy us.length).kind.isEdge = false := by
      rw [State.kind, hpeek, hequals]
      rfl
    rw [destructuring, destructuring, ← hcount]
    refine .next hopen (.pass hrest (isEdge_of_names hus) (.take hassign fun s₁ s₁' =>
      ((ho s₁ s₁').mono fun _ => trivial).bind fun value s₂ s₂' =>
        .pure (fun hp => ?_) fun hp => ?_))
    · rw [tree_move, tree_move, Expr.relocate]
      simp [Token.relocate, Anchor.relocate, Anchor.placed, Span.relocate_cover F.mono]
    · obtain ⟨⟨⟨-, hparen⟩, hequals, -⟩, hvalue, -⟩ := hp
      have hcover := hparen.cover (hvalue.node.spanOr (s.advance.advanceBy us.length).peek.span)
      exact .destructure ⟨⟨_, rfl, hcover⟩, ⟨_, rfl, hcover⟩⟩ hvalue
  · cases hnames

theorem expression_at (ho : F.Reads p q) : F.Reads (expression F.left p) (expression F.right q) := by
  intro s s'
  refine .look ?_
  have hright : F.Aligned s s' → s'.destructuring? = s.destructuring? := fun h => h.destructuring
  cases hnames : s.destructuring? with
  | some names =>
    exact ((destructuring_at ho hnames).mono fun _ => trivial).congr fun halign => by
      rw [hright halign, hnames]
  | none =>
    refine At.congr (q := q >>= _) ?_ fun halign => by rw [hright halign, hnames]
    refine ((ho s s').mono fun _ => trivial).bind fun lhs s₁ s₁' => .look ?_
    refine .branch (fun halign => halign.kind_iff rfl) (fun hequals => ?_) fun _ => ?_
    · refine .take (by rw [hequals]; rfl) fun s₂ s₂' => ((ho s₂ s₂').mono fun _ => trivial).bind
        fun value s₃ s₃' => assignment_at fun hp => ?_
      obtain ⟨⟨⟨⟨⟨-, -⟩, hlhs, -⟩, -⟩, hequals, -⟩, hvalue, -⟩ := hp
      exact ⟨hlhs, hvalue, hequals⟩
    · exact .pure (fun _ => rfl) fun hp => hp.1.2.1

/-! ### Functions

Decorators and functions. -/

theorem plainText_at : ∀ {fuel fuel' : Nat} (text : String) (s s' : State), fuel ≤ fuel' →
    F.At True View.same s s' (plainText fuel text) (plainText fuel' text)
  | 0, _, _, _, _, _ => .starve _
  | fuel + 1, 0, _, _, _, hfuel => absurd hfuel (Nat.not_succ_le_zero fuel)
  | fuel + 1, fuel' + 1, text, s, s', hfuel => by
      refine .look (.branch (fun halign => halign.kind_iff rfl) (fun hkind => ?_) fun _ =>
        .branch (fun halign => halign.kind_iff rfl) (fun _ => .failHere _) fun _ => ?_)
      · exact .take (by rw [hkind]; rfl) fun s₁ s₁' =>
          (plainText_at _ s₁ s₁' (Nat.le_of_succ_le_succ hfuel)).mono fun _ => trivial
      · exact .expect rfl fun _ _ _ => .pure (fun _ => rfl) fun _ => trivial

theorem decoratorList_at (hfuel : fuel ≤ fuel') : ∀ {rounds rounds' : Nat} (read : Decorators)
    (s s' : State), rounds ≤ rounds' →
      F.At True View.same s s' (decoratorList fuel rounds read) (decoratorList fuel' rounds' read)
  | 0, _, _, _, _, _ => .starve _
  | rounds + 1, 0, _, _, _, hrounds => absurd hrounds (Nat.not_succ_le_zero rounds)
  | rounds + 1, rounds' + 1, read, s, s', hrounds => by
      refine .expect rfl fun name s₁ s₁' => ?_
      have hrest : ∀ (text : Option String) (s s' : State), F.At True View.same s s' (do
          let more ← accept .comma
          if more then decoratorList fuel rounds (read.put name.lexeme text)
          else Parser.pure (read.put name.lexeme text)) (do
          let more ← accept .comma
          if more then decoratorList fuel' rounds' (read.put name.lexeme text)
          else Parser.pure (read.put name.lexeme text)) := by
        intro text s s'
        refine .accept rfl (fun s₁ s₁' => ?_) (.pure (fun _ => rfl) fun _ => trivial)
        exact (decoratorList_at hfuel _ s₁ s₁' (Nat.le_of_succ_le_succ hrounds)).mono fun _ => trivial
      refine .accept rfl (fun s₂ s₂' => .expect rfl fun _ s₃ s₃' => ?_)
        ((hrest none s₁ s₁').mono fun _ => trivial)
      exact ((plainText_at "" s₃ s₃' hfuel).mono fun _ => trivial).bind fun text s₄ s₄' =>
        (hrest (some text) s₄ s₄').mono fun _ => trivial

theorem decorators_at (hfuel : fuel ≤ fuel') (s s' : State) :
    F.At True View.same s s' (decorators F.left fuel) (decorators F.right fuel') := by
  refine .accept rfl (fun s₁ s₁' => .look ?_) (.pure (fun _ => rfl) fun _ => trivial)
  have hclose : ∀ (read : Decorators) (t t' : State), F.At (t.consumed ≠ 0) View.same t t' (do
      let _ ← closer F.left .rightBracket .unclosedDecorators
      Parser.pure read) (do
      let _ ← closer F.right .rightBracket .unclosedDecorators
      Parser.pure read) := fun read t t' =>
    (At.closer rfl _ id).bind fun _ _ _ => .pure (fun _ => rfl) fun _ => trivial
  dsimp only
  refine .branch (fun halign => halign.kind_iff rfl) (fun _ => ?_) fun _ => ?_
  · exact (hclose [] s₁ s₁').mono fun hp => Nat.ne_zero_of_lt hp.1.2
  · refine ((decoratorList_at hfuel [] s₁ s₁' hfuel).mono fun _ => trivial).bind fun read s₂ s₂' =>
      (hclose read s₂ s₂').mono fun hp => ?_
    have hmoved := hp.1.1.2
    have hle := hp.2.2
    omega

/-- What a function starts with is a common token. -/
theorem isEdge_of_startsFunction (h : s.startsFunction = true) : s.kind.isEdge = false := by
  simp only [State.startsFunction, Bool.or_eq_true, beq_iff_eq] at h
  rcases h with h | h <;> rw [h] <;> rfl

theorem function_at (ho : F.Reads p q) (hfuel : fuel ≤ fuel') (hs : s.startsFunction = true) :
    F.At True F.tree s s' (function F.left fuel p) (function F.right fuel' q) := by
  refine .look (((decorators_at hfuel s s').mono fun _ => trivial).bind fun marks s₁ s₁' =>
    .expect rfl fun _ s₂ s₂' => .block_closer (expression_at ho) hfuel rfl
      (fun hp => Nat.ne_zero_of_lt hp.2.2) fun body stop _ _ => .pure (fun hp => ?_) fun hp => ?_)
  · obtain ⟨⟨⟨⟨-, halign⟩, -⟩, -⟩, -⟩ := hp
    rw [(halign.advance (isEdge_of_startsFunction hs)).1, tree_move, Expr.relocate]
    simp [Token.relocate, Anchor.relocate, Anchor.placed, Span.relocate_cover F.mono, View.same]
  · obtain ⟨⟨⟨⟨-, halign⟩, -⟩, -⟩, hbody, hstop⟩ := hp
    have hcover := (halign.advance (isEdge_of_startsFunction hs)).2.1.cover hstop
    exact .function ⟨⟨_, rfl, hcover⟩, ⟨_, rfl, hcover⟩⟩ hbody

/-! ### Strings

The parts of a string are moved like trees, and put together alike. -/

section
variable (F)

/-- The parts of a string. -/
def pieces : View Pieces where
  move p := ⟨Expr.relocateAll F.move p.parts, p.text, p.textSpan.map (Span.relocate F.move)⟩
  sited p := F.trees.sited p.parts ∧ ∀ span ∈ p.textSpan, span.Sited F.site

/-- Two values side by side. -/
def both {α β : Type} (V : View α) (W : View β) : View (α × β) where
  move r := (V.move r.1, W.move r.2)
  sited r := V.sited r.1 ∧ W.sited r.2

theorem addText_move (p : Pieces) (content : Token) :
    (F.pieces.move p).addText (content.relocate F.move) = F.pieces.move (p.addText content) := by
  rcases p with ⟨parts, text, _ | span⟩ <;>
    simp [pieces, Pieces.addText, Token.relocate, Span.relocate_cover F.mono]

/-- The text that has been read so far is the same. -/
theorem textPart_move (p : Pieces) (offset : Nat) :
    (F.pieces.move p).textPart (F.move offset) = (p.textPart offset).relocate F.move := by
  rcases p with ⟨parts, text, _ | span⟩ <;>
    simp [pieces, Pieces.textPart, Expr.relocate, Anchor.relocate, Anchor.placed]

theorem addPart_move (p : Pieces) (offset : Nat) (e : Expr) :
    (F.pieces.move p).addPart (F.move offset) (e.relocate F.move) =
      F.pieces.move (p.addPart offset e) := by
  rw [Pieces.addPart, Pieces.addPart, textPart_move]
  simp [pieces, Expr.relocateAll]

theorem joinParts_move (span : Span) (first : Expr) (parts : List Expr) :
    joinParts (span.relocate F.move) (first.relocate F.move) (parts.map (Expr.relocate F.move)) =
      (joinParts span first parts).relocate F.move := by
  rw [joinParts, joinParts]
  induction parts generalizing first with
  | nil => rfl
  | cons part parts ih =>
    rw [List.map_cons, List.foldl_cons, List.foldl_cons, ← ih]
    simp [binary, Expr.relocate, Expr.relocateArgs, Expr.relocateAll, Anchor.relocate, Anchor.derived]

theorem allParts_move (p : Pieces) (offset : Nat) :
    (F.pieces.move p).allParts (F.move offset) = (p.allParts offset).map (Expr.relocate F.move) := by
  rw [Pieces.allParts, Pieces.allParts, textPart_move, ← Expr.relocateAll_eq_map]
  show (if p.text.isEmpty then Expr.relocateAll F.move p.parts else _) = _
  split
  · rfl
  · rw [Expr.relocateAll]
    rfl

theorem build_move (p : Pieces) (span stop : Span) :
    (F.pieces.move p).build (span.relocate F.move) (stop.relocate F.move) =
      (p.build span stop).relocate F.move := by
  have hparts : (F.pieces.move p).parts = p.parts.map (Expr.relocate F.move) :=
    Expr.relocateAll_eq_map F.move p.parts
  by_cases hp : p.parts = []
  · rw [Pieces.build_nil hp, Pieces.build_nil (by rw [hparts, hp, List.map_nil]), Expr.relocate]
    rfl
  · obtain ⟨first, others, hall⟩ := Pieces.exists_allParts hp stop.start
    have hall' : ((F.pieces.move p).allParts (stop.relocate F.move).start).reverse =
        first.relocate F.move :: others.map (Expr.relocate F.move) := by
      rw [show (stop.relocate F.move).start = F.move stop.start from rfl, allParts_move,
        ← List.map_reverse, hall, List.map_cons]
    have hp' : (F.pieces.move p).parts ≠ [] := by rwa [hparts, Ne, List.map_eq_nil_iff]
    rw [Pieces.build_cons hp hall, Pieces.build_cons hp' hall', joinParts_move]

end

/-- The text that has been read so far is at places that are known. -/
theorem textPart_sited {pieces : Pieces} (h : F.pieces.sited pieces) {offset : Nat}
    (hoffset : F.site offset) : F.tree.sited (pieces.textPart offset) := by
  have hspan : (pieces.textSpan.getD (.empty offset)).Sited F.site := by
    cases hspan : pieces.textSpan with
    | none => exact .empty hoffset
    | some span => exact h.2 span hspan
  exact .literal ⟨⟨_, rfl, hspan⟩, ⟨_, rfl, hspan⟩⟩

/-- More text is at places that are known, too. -/
theorem addText_sited {pieces : Pieces} (h : F.pieces.sited pieces) {content : Token}
    (hcontent : content.span.Sited F.site) : F.pieces.sited (pieces.addText content) := by
  refine ⟨h.1, ?_⟩
  rintro _ ⟨⟩
  cases hspan : pieces.textSpan with
  | none => exact hcontent
  | some span => exact (h.2 span hspan).cover hcontent

theorem addPart_sited {pieces : Pieces} (h : F.pieces.sited pieces) {offset : Nat}
    (hoffset : F.site offset) {e : Expr} (he : F.tree.sited e) :
    F.pieces.sited (pieces.addPart offset e) :=
  ⟨List.forall_mem_cons.mpr ⟨he, List.forall_mem_cons.mpr ⟨textPart_sited h hoffset, h.1⟩⟩, nofun⟩

theorem joinParts_sited {span : Span} (hspan : span.Sited F.site) {first : Expr} {parts : List Expr}
    (hfirst : F.tree.sited first) (hparts : F.trees.sited parts) :
    F.tree.sited (joinParts span first parts) := by
  rw [joinParts]
  induction parts generalizing first with
  | nil => exact hfirst
  | cons part parts ih =>
    obtain ⟨hpart, hparts⟩ := List.forall_mem_cons.mp hparts
    have hnode : ∀ e : Expr, e.span = some span → e.nameSpan = some span → e.Sited F.site :=
      fun _ h h' => ⟨⟨span, h, hspan⟩, ⟨span, h', hspan⟩⟩
    refine ih (.call (hnode _ rfl rfl) (.identifier (hnode _ rfl rfl)) ?_ nofun) hparts
    simpa using ⟨hfirst, hpart⟩

theorem build_sited {pieces : Pieces} (h : F.pieces.sited pieces) {span stop : Span}
    (hspan : span.Sited F.site) (hstop : stop.Sited F.site) : F.tree.sited (pieces.build span stop) := by
  by_cases hp : pieces.parts = []
  · rw [Pieces.build_nil hp]
    exact .literal ⟨⟨_, rfl, hspan⟩, ⟨_, rfl, hspan⟩⟩
  · obtain ⟨first, others, hall⟩ := Pieces.exists_allParts hp stop.start
    have hparts : F.trees.sited (pieces.allParts stop.start) := by
      rw [Pieces.allParts]
      split
      · exact h.1
      · exact List.forall_mem_cons.mpr ⟨textPart_sited h hstop.start, h.1⟩
    obtain ⟨hfirst, hothers⟩ : F.tree.sited first ∧ F.trees.sited others :=
      List.forall_mem_cons.mp fun e he => hparts e (List.mem_reverse.mp (hall ▸ he))
    rw [Pieces.build_cons hp hall]
    exact joinParts_sited hspan hfirst hothers

/-- The parts of a string behind its opening quote. -/
theorem stringParts_at (ho : F.Reads p q) : ∀ {fuel fuel' : Nat} (pieces : Pieces) (s s' : State),
    fuel ≤ fuel' → F.At (F.pieces.sited pieces ∧ s.consumed ≠ 0) (both F.pieces F.span) s s'
      (stringParts F.left p fuel pieces) (stringParts F.right q fuel' (F.pieces.move pieces))
  | 0, _, _, _, _, _ => .starve _
  | fuel + 1, 0, _, _, _, hfuel => absurd hfuel (Nat.not_succ_le_zero fuel)
  | fuel + 1, fuel' + 1, pieces, s, s', hfuel => by
      have ih := fun pieces s s' => stringParts_at ho pieces s s' (Nat.le_of_succ_le_succ hfuel)
      refine .look ?_
      generalize hkind' : s'.kind = kind'
      revert kind'
      refine At.kinds ?_ fun hopen hedge => ?_
      · split
        -- more text of the same piece
        · rename_i hkind
          refine .take (by rw [hkind]; rfl) fun s₁ s₁' => ?_
          rw [addText_move]
          exact (ih _ s₁ s₁').mono fun hp =>
            ⟨addText_sited hp.1.1.1 hp.2.1, Nat.ne_zero_of_lt hp.2.2⟩
        -- an interpolation, whose closing brace may be missing
        · rename_i hkind
          refine .take (by rw [hkind]; rfl) fun s₁ s₁' =>
            ((expression_at ho s₁ s₁').mono fun _ => trivial).bind fun e s₂ s₂' =>
              (At.closer rfl _ fun hp => ?_).bind fun _ s₃ s₃' => ?_
          · exact Nat.ne_zero_of_lt (Nat.lt_of_lt_of_le hp.1.2.2 hp.2.2)
          · rw [tree_move, show (s.peek.relocate F.move).span.start = F.move s.peek.span.start from rfl,
              addPart_move]
            refine (ih _ s₃ s₃').mono fun hp => ?_
            obtain ⟨⟨⟨⟨⟨hpieces, -⟩, -⟩, hmark, hlt⟩, he, hle⟩, -, hle'⟩ := hp
            exact ⟨addPart_sited hpieces hmark.start he, by omega⟩
        -- the closing quote ends the string
        · rename_i hkind
          exact .take (by rw [hkind]; rfl) fun _ _ =>
            .pure (fun _ => rfl) fun hp => ⟨hp.1.1.1, hp.2.1⟩
        -- the string is not closed: the errors of the two readers stand at the ends of the tokens they have
        -- read last
        · refine .recover fun hp hclosed halign => ?_
          obtain ⟨hstop, hsited⟩ := halign.lastStop hp.1.2
          refine ⟨halign.errorHere hclosed _, ?_, hp.1.1, .empty hsited⟩
          rw [hstop]
          rfl
      -- a stop inside of a string is an error on the left
      · rcases TokenKind.isEdge_iff.mp hedge with hkind | hkind <;> rw [hkind] <;>
          exact At.not_good_recover hopen _ _ _

theorem string_at (ho : F.Reads p q) (hfuel : fuel ≤ fuel') (hkind : s.kind = .stringStart) :
    F.At True F.tree s s' (string F.left fuel p) (string F.right fuel' q) := by
  refine .take (by rw [hkind]; rfl) fun s₁ s₁' =>
    ((stringParts_at ho ⟨[], "", none⟩ s₁ s₁' hfuel).mono fun hp => ?_).bind fun r s₂ s₂' =>
      .pure (fun _ => ?_) fun hp => ?_
  · exact ⟨⟨List.forall_mem_nil _, nofun⟩, Nat.ne_zero_of_lt hp.2.2⟩
  · rw [tree_move, ← build_move, Span.relocate_cover F.mono]
    rfl
  · obtain ⟨⟨-, hquote, -⟩, ⟨hpieces, hstop⟩, -⟩ := hp
    exact build_sited hpieces (hquote.cover hstop) hstop

/-! ### Primaries, calls and fields

The readers of what operands are made of. -/

theorem primary_at (ho : F.Reads p q) (hfuel : fuel ≤ fuel') :
    F.Reads (primary F.left fuel p) (primary F.right fuel' q) := by
  intro s s'
  refine .look ?_
  dsimp only
  generalize htoken' : s'.peek = token'
  revert token'
  -- the next token is the same for both, moved, or both stand at the stop of an open frame
  refine At.peeks ?_ fun hopen hedge => ?_
  · dsimp only [Token.relocate]
    split
    -- a name, and next an operator that is read as one
    · rename_i hkind
      refine .take (by rw [State.kind, hkind]; rfl) fun _ _ => .pure (fun _ => ?_) fun hp =>
        .identifier ⟨⟨_, rfl, hp.2.1⟩, ⟨_, rfl, hp.2.1⟩⟩
      rw [tree_move, Expr.relocate]
      rfl
    · rename_i hkind
      refine .take (by rw [State.kind, hkind]; rfl) fun _ _ => .pure (fun _ => ?_) fun hp =>
        .identifier ⟨⟨_, rfl, hp.2.1⟩, ⟨_, rfl, hp.2.1⟩⟩
      rw [tree_move, Expr.relocate]
      rfl
    -- whether a number can be read depends on its text alone
    · rename_i hkind
      refine .take (by rw [State.kind, hkind]; rfl) fun _ _ => ?_
      split
      · refine .pure (fun _ => ?_) fun hp => .literal ⟨⟨_, rfl, hp.2.1⟩, ⟨_, rfl, hp.2.1⟩⟩
        rw [tree_move, Expr.relocate]
        rfl
      · exact .fail (fun _ => rfl) fun hp => hp.2.1
    · rename_i hkind
      exact (string_at ho hfuel hkind).mono fun _ => trivial
    · rename_i hkind
      exact (function_at ho hfuel (by simp [State.startsFunction, State.kind, hkind])).mono fun _ => trivial
    · rename_i hkind
      exact (function_at ho hfuel (by simp [State.startsFunction, State.kind, hkind])).mono fun _ => trivial
    -- the brackets are covered as a whole, from the opening one to the closing one
    · rename_i hkind
      refine .take (by rw [State.kind, hkind]; rfl) fun s₁ s₁' =>
        ((expression_at ho s₁ s₁').mono fun _ => trivial).bind fun inner s₂ s₂' =>
          (At.closer rfl _ fun hp => ?_).bind fun stop _ _ => .pure (fun _ => ?_) fun hp => ?_
      · exact Nat.ne_zero_of_lt (Nat.lt_of_lt_of_le hp.1.2.2 hp.2.2)
      · simp [Expr.relocate, Anchor.relocate, Anchor.placed, Span.relocate_cover F.mono]
      · obtain ⟨⟨⟨-, hopen, -⟩, hinner, -⟩, hstop, -⟩ := hp
        have hcover := hopen.cover hstop
        exact .bracket ⟨⟨_, rfl, hcover⟩, ⟨_, rfl, hcover⟩⟩ hinner
    -- what is no primary is stood in for by a name at the place where one is missing
    · refine .recover fun hp _ _ => ⟨⟨rfl, hp.2⟩, ?_, ?_⟩
      · rw [tree_move, Expr.relocate]
        rfl
      · have hempty : (Span.empty s.peek.span.start).Sited F.site := .empty hp.2.start
        exact .identifier ⟨⟨_, rfl, hempty⟩, ⟨_, rfl, hempty⟩⟩
  -- at the stop the left reader misses a primary, and being strict it is no good
  · rw [State.kind] at hedge
    rcases TokenKind.isEdge_iff.mp hedge with hkind | hkind <;> rw [hkind] <;>
      exact At.not_good_recover hopen _ _ _

/-- Both readers see a name, or neither does. -/
theorem Aligned.atName (h : F.Aligned s s') : s'.atName = s.atName := by
  have hname := h.kind_iff (show TokenKind.isEdge .identifier = false from rfl)
  have hoperator := h.kind_iff (show TokenKind.isEdge .operator = false from rfl)
  rw [State.atName, State.atName, Bool.eq_iff_iff]
  simp only [Bool.or_eq_true, beq_iff_eq, hname, hoperator]

theorem isEdge_of_atName (h : s.atName = true) : s.kind.isEdge = false := by
  simp only [State.atName, Bool.or_eq_true, beq_iff_eq] at h
  rcases h with h | h <;> rw [h] <;> rfl

/-- Both readers see the start of a function, or neither does. -/
theorem Aligned.startsFunction (h : F.Aligned s s') : s'.startsFunction = s.startsFunction := by
  have hbrace := h.kind_iff (show TokenKind.isEdge .leftBrace = false from rfl)
  have hbracket := h.kind_iff (show TokenKind.isEdge .leftBracket = false from rfl)
  rw [State.startsFunction, State.startsFunction, Bool.eq_iff_iff]
  simp only [Bool.or_eq_true, beq_iff_eq, hbrace, hbracket]

/-- Both readers see the start of arguments, or neither does. -/
theorem Aligned.startsArguments (h : F.Aligned s s') : s'.startsArguments = s.startsArguments := by
  have hparen := h.kind_iff (show TokenKind.isEdge .leftParen = false from rfl)
  have hbrace := h.kind_iff (show TokenKind.isEdge .leftBrace = false from rfl)
  have hbracket := h.kind_iff (show TokenKind.isEdge .leftBracket = false from rfl)
  rw [State.startsArguments, State.startsArguments, Bool.eq_iff_iff]
  simp only [Bool.or_eq_true, beq_iff_eq, hparen, hbrace, hbracket]

/-- What arguments start with is a common token. -/
theorem isEdge_of_startsArguments (h : s.startsArguments = true) : s.kind.isEdge = false := by
  simp only [State.startsArguments, Bool.or_eq_true, beq_iff_eq] at h
  rcases h with (h | h) | h <;> rw [h] <;> rfl

/-- Looking for `=` behind a name does not look beyond the end of a line. -/
theorem Aligned.atNamedArgument (h : F.Aligned s s') : s'.atNamedArgument = s.atNamedArgument := by
  rw [State.atNamedArgument, State.atNamedArgument, h.atName]
  cases hname : s.atName with
  | false => rfl
  | true =>
    have hedge := isEdge_of_atName hname
    obtain ⟨_ | ⟨t, x⟩, h⟩ := h
    · rw [State.kind, h.peek_stop.1, F.stop_isEdge.1] at hedge
      cases hedge
    · rw [h.rest, h.rest']
      cases x with
      | nil =>
        have hne : ∀ kind : TokenKind, kind.isEdge = true →
            (some kind == some TokenKind.assign) = false := by
          intro kind hkind
          simpa using TokenKind.ne_of_isEdge hkind (show TokenKind.isEdge .assign = false from rfl)
        simp only [List.map_cons, List.map_nil, List.cons_append, List.nil_append,
          List.getElem?_cons_succ, List.getElem?_cons_zero, Option.map_some]
        rw [hne _ F.stop_isEdge.1, hne _ F.stop_isEdge.2]
      | cons u x => rfl

theorem argument_at (ho : F.Reads p q) (s s' : State) :
    F.At True F.arg s s' (argument p) (argument q) := by
  refine .look (.branch (fun halign => by rw [halign.atNamedArgument]) (fun hnamed => ?_) fun _ => ?_)
  · obtain ⟨hname, hassign⟩ := atNamedArgument_spec hnamed
    have hedge : s.kind.isEdge = false := by
      rcases hname with hname | hname <;> rw [State.kind, hname] <;> rfl
    refine .next hedge (.take (by rw [hassign]; rfl) fun s₁ s₁' =>
      ((ho s₁ s₁').mono fun _ => trivial).bind fun value _ _ => .pure (fun _ => rfl) fun hp => hp.2.1)
  · exact ((ho s s').mono fun _ => trivial).bind fun value _ _ =>
      .pure (fun _ => rfl) fun hp => hp.2.1

theorem argumentList_at (ho : F.Reads p q) : ∀ {fuel fuel' : Nat} (read : List (Argument Expr))
    (s s' : State), fuel ≤ fuel' → F.At (F.args.sited read) F.args s s'
      (argumentList p fuel read) (argumentList q fuel' (F.args.move read))
  | 0, _, _, _, _, _ => .starve _
  | fuel + 1, 0, _, _, _, hfuel => absurd hfuel (Nat.not_succ_le_zero fuel)
  | fuel + 1, fuel' + 1, read, s, s', hfuel => by
      refine ((argument_at ho s s').mono fun _ => trivial).bind fun arg s₁ s₁' => ?_
      have hcons : F.arg.move arg :: F.args.move read = F.args.move (arg :: read) := by
        rw [args_move, args_move, Expr.relocateArgs_eq_map, Expr.relocateArgs_eq_map]
        rfl
      have hdone : ∀ t t', F.At (F.args.sited (arg :: read)) F.args t t'
          (Parser.pure (arg :: read).reverse)
          (Parser.pure (F.arg.move arg :: F.args.move read).reverse) := by
        intro t t'
        refine .pure (fun _ => ?_) fun hp a ha => hp a (List.mem_reverse.mp ha)
        rw [hcons, args_move, args_move, Expr.relocateArgs_eq_map, Expr.relocateArgs_eq_map,
          List.map_reverse]
      refine .accept rfl (fun s₂ s₂' => .look ?_) (.look ?_)
      · refine .branch (fun halign => ?_) (fun _ => ?_) fun _ => ?_
        · have hparen := halign.kind_iff (show TokenKind.isEdge .rightParen = false from rfl)
          simp [hparen]
        · rw [hcons]
          exact (argumentList_at ho _ s₂ s₂' (Nat.le_of_succ_le_succ hfuel)).mono fun hp =>
            List.forall_mem_cons.mpr ⟨hp.1.1.2.1, hp.1.1.1⟩
        · exact (hdone s₂ s₂').mono fun hp => List.forall_mem_cons.mpr ⟨hp.1.1.2.1, hp.1.1.1⟩
      · exact (hdone s₁ s₁').mono fun hp => List.forall_mem_cons.mpr ⟨hp.1.2.1, hp.1.1⟩

theorem trailing_at (ho : F.Reads p q) (hfuel : fuel ≤ fuel') : ∀ {rounds rounds' : Nat}
    (read : List Expr) (stop : Span) (s s' : State), rounds ≤ rounds' →
      F.At (F.trees.sited read ∧ F.span.sited stop) (both F.trees F.span) s s'
        (trailing F.left fuel p rounds read stop)
        (trailing F.right fuel' q rounds' (F.trees.move read) (F.span.move stop))
  | 0, _, _, _, _, _, _ => .starve _
  | rounds + 1, 0, _, _, _, _, hrounds => absurd hrounds (Nat.not_succ_le_zero rounds)
  | rounds + 1, rounds' + 1, read, stop, s, s', hrounds => by
      refine .look (.branch (fun halign => by rw [halign.startsFunction]) (fun hstarts => ?_) fun _ => ?_)
      · refine ((function_at ho hfuel hstarts).mono fun _ => trivial).bind fun f s₁ s₁' => ?_
        have hcons : F.tree.move f :: F.trees.move read = F.trees.move (f :: read) := by
          rw [trees_move, trees_move, Expr.relocateAll]
          rfl
        rw [hcons, tree_move, span_move, Expr.spanOr_relocate]
        refine (trailing_at ho hfuel _ _ s₁ s₁' (Nat.le_of_succ_le_succ hrounds)).mono fun hp => ?_
        exact ⟨List.forall_mem_cons.mpr ⟨hp.2.1, hp.1.1.1⟩, hp.2.1.node.spanOr stop⟩
      · refine .pure (fun _ => ?_) fun hp => ⟨fun e he => hp.1.1 e (List.mem_reverse.mp he), hp.1.2⟩
        simp [both, Expr.relocateAll_eq_map]

/-- The arguments of a call. -/
def callArgs (F : Frame) : View Arguments where
  move a := ⟨F.args.move a.args, F.trees.move a.trailing, F.span.move a.stop⟩
  sited a := F.args.sited a.args ∧ F.trees.sited a.trailing ∧ F.span.sited a.stop

theorem arguments_at (ho : F.Reads p q) (hfuel : fuel ≤ fuel') (hs : s.startsArguments = true) :
    F.At True F.callArgs s s' (arguments F.left fuel p) (arguments F.right fuel' q) := by
  -- the closing parenthesis and what follows it, whatever the arguments
  have hclose : ∀ (args : List (Argument Expr)) (t t' : State),
      F.At (F.args.sited args ∧ t.consumed ≠ 0) F.callArgs t t' (do
        let stop ← closer F.left .rightParen .unclosedArguments
        let r ← trailing F.left fuel p fuel [] stop
        Parser.pure (⟨args, r.1, r.2⟩ : Arguments)) (do
        let stop ← closer F.right .rightParen .unclosedArguments
        let r ← trailing F.right fuel' q fuel' [] stop
        Parser.pure (⟨F.args.move args, r.1, r.2⟩ : Arguments)) := by
    refine fun args t t' => (At.closer rfl _ And.right).bind fun stop t₁ t₁' =>
      ((trailing_at ho hfuel [] stop t₁ t₁' hfuel).mono fun hp =>
        ⟨List.forall_mem_nil _, hp.2.1⟩).bind fun r _ _ => .pure (fun _ => rfl) fun hp => ?_
    exact ⟨hp.1.1.1, hp.2.1.1, hp.2.1.2⟩
  refine .look (.branch (fun halign => halign.kind_iff rfl) (fun hkind => ?_) fun hkind => ?_)
  · refine .take (by rw [hkind]; rfl) fun s₁ s₁' => .look ?_
    dsimp only
    -- arguments without any, or with some
    refine .branch (fun halign => halign.kind_iff rfl) (fun _ => ?_) fun _ => ?_
    · exact (hclose [] s₁ s₁').mono fun hp => ⟨List.forall_mem_nil _, Nat.ne_zero_of_lt hp.1.2.2⟩
    · refine ((argumentList_at ho [] s₁ s₁' hfuel).mono fun _ => List.forall_mem_nil _).bind
        fun args s₂ s₂' => (hclose args s₂ s₂').mono fun hp => ⟨hp.2.1, ?_⟩
      exact Nat.ne_zero_of_lt (Nat.lt_of_lt_of_le hp.1.1.2.2 hp.2.2)
  -- without parentheses the functions start here, and their first token is a common one
  · have hedge := isEdge_of_startsArguments hs
    refine At.congr (q := trailing F.right fuel' q fuel' [] (s.peek.span.relocate F.move) >>= fun r =>
      Parser.pure (⟨[], r.1, r.2⟩ : Arguments)) ?_ fun halign => ?_
    · refine ((trailing_at ho hfuel [] s.peek.span s s' hfuel).mono fun hp =>
        ⟨List.forall_mem_nil _, (hp.2.advance hedge).2.1⟩).bind fun r _ _ => .pure (fun _ => rfl) fun hp => ?_
      exact ⟨List.forall_mem_nil _, hp.2.1.1, hp.2.1.2⟩
    · rw [(halign.advance hedge).1]
      rfl

theorem callTail_at (ho : F.Reads p q) (hfuel : fuel ≤ fuel') : ∀ {rounds rounds' : Nat} (e : Expr)
    (s s' : State), rounds ≤ rounds' → F.At (F.tree.sited e) F.tree s s'
      (callTail F.left fuel p rounds e) (callTail F.right fuel' q rounds' (F.tree.move e))
  | 0, _, _, _, _, _ => .starve _
  | rounds + 1, 0, _, _, _, hrounds => absurd hrounds (Nat.not_succ_le_zero rounds)
  | rounds + 1, rounds' + 1, e, s, s', hrounds => by
      refine .look (.branch (fun halign => by rw [halign.startsArguments]) (fun hstarts => ?_) fun _ => ?_)
      · have hedge := isEdge_of_startsArguments hstarts
        refine At.congr (q := arguments F.right fuel' q >>= fun a => callTail F.right fuel' q rounds'
          (.call (.placed (((e.spanOr s.peek.span).relocate F.move).cover a.stop)) (F.tree.move e) a.args
            a.trailing)) ?_ fun halign => ?_
        · refine ((arguments_at ho hfuel hstarts).mono fun _ => trivial).bind fun a s₁ s₁' => ?_
          -- the call that is read on the right is the one on the left, moved
          have hcall : Expr.call (.placed (((e.spanOr s.peek.span).relocate F.move).cover
              (F.callArgs.move a).stop)) (F.tree.move e) (F.callArgs.move a).args
                (F.callArgs.move a).trailing = F.tree.move (.call (.placed ((e.spanOr s.peek.span).cover
                  a.stop)) e a.args a.trailing) := by
            rw [tree_move, tree_move, Expr.relocate]
            simp [callArgs, Anchor.relocate, Anchor.placed, Span.relocate_cover F.mono]
          rw [hcall]
          refine (callTail_at ho hfuel _ s₁ s₁' (Nat.le_of_succ_le_succ hrounds)).mono fun hp => ?_
          obtain ⟨⟨he, halign⟩, ⟨hargs, htrailing, hstop⟩, -⟩ := hp
          have hcover := (he.node.spanOr s.peek.span).cover hstop
          exact .call ⟨⟨_, rfl, hcover⟩, ⟨_, rfl, hcover⟩⟩ he hargs htrailing
        -- the span is covered from what has been read before, so it is known where it starts
        · rw [(halign.advance hedge).1, tree_move]
          rw [show (s.peek.relocate F.move).span = s.peek.span.relocate F.move from rfl,
            Expr.spanOr_relocate]
      · exact .pure (fun _ => rfl) fun hp => hp.1

theorem fieldKey_at (dot : Span) (s s' : State) :
    F.At (dot.Sited F.site) (both View.same F.span) s s' (fieldKey F.left dot)
      (fieldKey F.right (dot.relocate F.move)) := by
  refine .look ?_
  dsimp only
  generalize htoken' : s'.peek = token'
  revert token'
  refine At.peeks ?_ fun hopen hedge => ?_
  · dsimp only [Token.relocate]
    split
    · rename_i hkind
      exact .take (by rw [State.kind, hkind]; rfl) fun _ _ =>
        .pure (fun _ => rfl) fun hp => ⟨trivial, hp.2.1⟩
    · rename_i hkind
      exact .take (by rw [State.kind, hkind]; rfl) fun _ _ =>
        .pure (fun _ => rfl) fun hp => ⟨trivial, hp.2.1⟩
    · rename_i hkind
      refine .take (by rw [State.kind, hkind]; rfl) fun _ _ => ?_
      split
      · exact .pure (fun _ => rfl) fun hp => ⟨trivial, hp.2.1⟩
      · exact .fail (fun _ => rfl) fun hp => hp.2.1
    · exact .recover fun hp hclosed halign =>
        ⟨halign.errorHere hclosed _, rfl, trivial, .empty hp.1.1.stop⟩
  · rw [State.kind] at hedge
    rcases TokenKind.isEdge_iff.mp hedge with hkind | hkind <;> rw [hkind] <;>
      exact At.not_good_recover hopen _ _ _

theorem accessTail_at (ho : F.Reads p q) (hfuel : fuel ≤ fuel') : ∀ {rounds rounds' : Nat} (e : Expr)
    (s s' : State), rounds ≤ rounds' → F.At (F.tree.sited e) F.tree s s'
      (accessTail F.left fuel p rounds e) (accessTail F.right fuel' q rounds' (F.tree.move e))
  | 0, _, _, _, _, _ => .starve _
  | rounds + 1, 0, _, _, _, hrounds => absurd hrounds (Nat.not_succ_le_zero rounds)
  | rounds + 1, rounds' + 1, e, s, s', hrounds => by
      have ih := fun e s s' => accessTail_at ho hfuel e s s' (Nat.le_of_succ_le_succ hrounds)
      refine .look (.branch (fun halign => halign.kind_iff rfl) (fun hdot => ?_) fun _ => ?_)
      · refine .take (by rw [hdot]; rfl) fun s₁ s₁' =>
          ((fieldKey_at s.peek.span s₁ s₁').mono fun hp => hp.2.1).bind fun r s₂ s₂' => .look ?_
        -- the span of what is read starts where the operand starts, on both sides
        have hstart : (F.tree.move e).spanOr (s.peek.relocate F.move).span =
            (e.spanOr s.peek.span).relocate F.move := e.spanOr_relocate F.move s.peek.span
        dsimp only
        rw [hstart]
        -- arguments right behind the key make a call of the method
        refine .branch (fun halign => by rw [halign.startsArguments]) (fun hstarts => ?_) fun _ => ?_
        · refine ((arguments_at ho hfuel hstarts).mono fun _ => trivial).bind fun a s₃ s₃' => ?_
          have hsend : Expr.send (.placed (((e.spanOr s.peek.span).relocate F.move).cover
              (F.callArgs.move a).stop)) (F.tree.move e) (both View.same F.span |>.move r).1
                (some (both View.same F.span |>.move r).2) (F.callArgs.move a).args
                (F.callArgs.move a).trailing = F.tree.move (.send (.placed ((e.spanOr s.peek.span).cover
                  a.stop)) e r.1 (some r.2) a.args a.trailing) := by
            rw [tree_move, tree_move, Expr.relocate]
            simp [callArgs, both, View.same, Anchor.relocate, Anchor.placed, Span.relocate_cover F.mono]
          rw [hsend]
          refine ((callTail_at ho hfuel _ s₃ s₃' hfuel).mono fun hp => ?_).bind fun called s₄ s₄' =>
            (ih called s₄ s₄').mono fun hp => hp.2.1
          obtain ⟨⟨⟨⟨⟨he, -⟩, -⟩, ⟨-, hkey⟩, -⟩, -⟩, ⟨hargs, htrailing, hstop⟩, -⟩ := hp
          exact .send ⟨⟨_, rfl, (he.node.spanOr _).cover hstop⟩, ⟨_, rfl, hkey⟩⟩ he hargs htrailing
        -- without arguments the field is only read
        · have hfield : Expr.field (.placed (((e.spanOr s.peek.span).relocate F.move).cover
              (both View.same F.span |>.move r).2)) (F.tree.move e) (both View.same F.span |>.move r).1
                (some (both View.same F.span |>.move r).2) = F.tree.move (.field (.placed
                  ((e.spanOr s.peek.span).cover r.2)) e r.1 (some r.2)) := by
            rw [tree_move, tree_move, Expr.relocate]
            simp [both, View.same, Anchor.relocate, Anchor.placed, Span.relocate_cover F.mono]
          rw [hfield]
          refine (ih _ s₂ s₂').mono fun hp => ?_
          obtain ⟨⟨⟨⟨he, -⟩, -⟩, ⟨-, hkey⟩, -⟩, -⟩ := hp
          exact .field ⟨⟨_, rfl, (he.node.spanOr _).cover hkey⟩, ⟨_, rfl, hkey⟩⟩ he
      · exact .pure (fun _ => rfl) fun hp => hp.1

theorem access_at (ho : F.Reads p q) (hfuel : fuel ≤ fuel') :
    F.Reads (access F.left fuel p) (access F.right fuel' q) := fun s s' =>
  (primary_at ho hfuel s s').bind fun e s₁ s₁' =>
    ((callTail_at ho hfuel e s₁ s₁' hfuel).mono fun hp => hp.2.1).bind fun called s₂ s₂' =>
      (accessTail_at ho hfuel called s₂ s₂' hfuel).mono fun hp => hp.2.1

/-! ### Operations

The induction on the fuel. -/

theorem operationTail_at (ho : F.Reads p q) : ∀ {rounds rounds' : Nat} (lhs : Expr) (s s' : State),
    rounds ≤ rounds' → F.At (F.tree.sited lhs) F.tree s s' (operationTail p rounds lhs)
      (operationTail q rounds' (F.tree.move lhs))
  | 0, _, _, _, _, _ => .starve _
  | rounds + 1, 0, _, _, _, hrounds => absurd hrounds (Nat.not_succ_le_zero rounds)
  | rounds + 1, rounds' + 1, lhs, s, s', hrounds => by
      refine .look (.branch (fun halign => by rw [halign.atName]) (fun hname => ?_) fun _ => ?_)
      · refine .take (isEdge_of_atName hname) fun s₁ s₁' => ((ho s₁ s₁').mono fun _ => trivial).bind
          fun rhs s₂ s₂' => ?_
        -- the operation reaches from the start of its left operand to the end of its right one
        have hright : ∀ e : Expr, (F.tree.move e).spanOr (s.peek.relocate F.move).span =
            (e.spanOr s.peek.span).relocate F.move := fun e => e.spanOr_relocate F.move s.peek.span
        have hbinary : ∀ span : Span, binary (.placed (span.relocate F.move))
            (.identifier (.placed (s.peek.relocate F.move).span) (s.peek.relocate F.move).lexeme)
            (F.tree.move lhs) (F.tree.move rhs) = F.tree.move (binary (.placed span)
              (.identifier (.placed s.peek.span) s.peek.lexeme) lhs rhs) := by
          intro span
          simp [binary, Token.relocate, Expr.relocate, Expr.relocateArgs, Expr.relocateAll,
            Anchor.relocate, Anchor.placed]
        dsimp only
        rw [hright, hright, ← Span.relocate_cover F.mono, hbinary]
        refine (operationTail_at ho _ s₂ s₂' (Nat.le_of_succ_le_succ hrounds)).mono fun hp => ?_
        obtain ⟨⟨⟨hlhs, -⟩, hoperator, -⟩, hrhs, -⟩ := hp
        have hcover := (hlhs.node.spanOr s.peek.span).cover (hrhs.node.spanOr s.peek.span)
        refine .call ⟨⟨_, rfl, hcover⟩, ⟨_, rfl, hcover⟩⟩
          (.identifier ⟨⟨_, rfl, hoperator⟩, ⟨_, rfl, hoperator⟩⟩) ?_ (List.forall_mem_nil _)
        simpa using ⟨hlhs, hrhs⟩
      · exact .pure (fun _ => rfl) fun hp => hp.1

/-- Operations, by induction on the fuel of the left reader. -/
theorem operation_at : ∀ {fuel fuel' : Nat}, fuel ≤ fuel' →
    F.Reads (operation F.left fuel) (operation F.right fuel')
  | 0, _, _ => fun _ _ => .starve _
  | fuel + 1, 0, hfuel => absurd hfuel (Nat.not_succ_le_zero fuel)
  | fuel + 1, fuel' + 1, hfuel => by
      have hle := Nat.le_of_succ_le_succ hfuel
      have haccess := access_at (operation_at hle) hle
      exact fun s s' => (haccess s s').bind fun first s₁ s₁' =>
        (operationTail_at haccess first s₁ s₁' hle).mono fun hp => hp.2.1

/-! ### Programs

What this says of the spans of a text. -/

/-- **Programs side by side**, where the one on the right may have read something before. -/
theorem program_settles {rounds' : Nat} (hfuel : fuel ≤ fuel') (hrounds : fuel ≤ rounds')
    (read' : List Expr) (hgood : F.Good (program F.left fuel s)) (halign : F.Aligned s s') :
    F.Settles .eof (expression F.right (operation F.right fuel')) [] read' rounds' s s'
      (program F.left fuel s)
      (block .eof (expression F.right (operation F.right fuel')) rounds' read' s') :=
  block_settles (expression_at (operation_at hfuel)) fuel rounds' [] read' s s' hrounds hgood halign

/-- The frame of a whole text and the same text moved. -/
def whole (move : Nat → Nat) (mono : Monotone move) (site : Nat → Prop) (policy : Policy) (ahead : Nat)
    (eof : Token) (heof : eof.kind = .eof) (hsited : eof.span.Sited site) : Frame where
  move := move
  mono := mono
  site := site
  ahead := ahead
  left := policy
  right := policy
  stop := eof
  behind := []
  stop' := eof.relocate move
  behind' := []
  closed := true
  of_closed := fun _ => ⟨rfl, heof, rfl, hsited⟩
  of_open := nofun

end Frame

/-- **A program reaches no further than its tokens.** -/
theorem program_sited {P : Nat → Prop} {policy : Policy} {tokens : List Token} {eof : Token}
    (heof : eof.kind = .eof) (hsited : eof.span.Sited P)
    (htokens : ∀ t ∈ tokens, t.kind ≠ .eof ∧ t.span.Sited P) {fuel : Nat} {es : List Expr} {s : State}
    (h : program policy fuel (.start (tokens ++ [eof])) = .done es s) :
    (∀ e ∈ es, e.Every (Expr.Sited P)) ∧ ∀ e ∈ s.errors, e.span.Sited P := by
  let F := Frame.whole id monotone_id P policy 0 eof heof hsited
  have halign : F.Aligned (.start (tokens ++ [eof])) (.start (tokens ++ [eof])) := by
    refine ⟨tokens, rfl, ?_, htokens, rfl, fun hne => absurd rfl hne, rfl, List.forall_mem_nil _⟩
    show tokens ++ [eof] = tokens.map (Token.relocate id) ++ [eof]
    rw [Token.relocate_id, List.map_id]
  have hgood : F.Good (program policy fuel (.start (tokens ++ [eof]))) := by
    rw [h]
    exact .inl rfl
  obtain ⟨es', s₁, s₁', hleft, -, hes, x, hx⟩ :=
    (Frame.program_settles (Nat.le_refl fuel) (Nat.le_refl fuel) [] hgood halign).of_closed rfl
  cases h.symm.trans hleft
  exact ⟨hes, hx.sited⟩

end Parser

/-- What is read from a text reaches no further than the tokens of the text. -/
theorem Expr.sited_of_parse {P : Nat → Prop} {text : String}
    (htokens : ∀ t ∈ (Token.ofText text).tokens, t.span.Sited P) (policy : Parser.Policy) :
    (∀ e ∈ (parse policy text).exprs.getD [], e.Every (Sited P)) ∧
      ∀ e ∈ (parse policy text).grammar, e.span.Sited P := by
  obtain ⟨tokens, eof, hspec, heof, hinner⟩ := Token.ofText_spec text
  rw [hspec, List.forall_mem_append, List.forall_mem_singleton] at htokens
  obtain ⟨es, s, hread, hparse⟩ := parse_done policy text
  rw [hspec] at hread
  obtain ⟨hes, herrors⟩ := Parser.program_sited heof htokens.2
    (fun t ht => ⟨(hinner t ht).1, htokens.1 t ht⟩) hread
  rw [hparse]
  refine ⟨fun e he => ?_, fun e he => herrors e (List.mem_reverse.mp he)⟩
  dsimp only at he
  split at he
  · exact hes e he
  · cases he

end Protean
