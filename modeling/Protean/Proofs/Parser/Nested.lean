import Protean.Proofs.Parser.Acceptance
import Protean.Proofs.Parser.Balance
import Protean.Proofs.Parser.Places
import Protean.Proofs.Token.Faults
import Protean.Proofs.Token.Layout

/-!
# Proofs — Parser — spans

All spans of nodes, names and diagnostics lie in the text, for strict and for tolerant readers, since they are
copied or joined from the spans of tokens.  What a strict reader accepts is also nested: every node encloses its
name and the nodes right below it (`Expr.Encloses`).  This rests on the order of the tokens: `Token.Row lo ts hi`
says that the tokens `ts` stand one behind the other between the offsets `lo` and `hi`, and every phrase over tokens
in a row stands for a tree that lies between these offsets (`Expr.Lies`), from the innermost phrases to whole
programs.

**Spans are sound** (`spans_are_sound`).

* `Span.Inside`, `Token.Row`: spans between two offsets, and tokens between two offsets, in their order.
* `Expr.Lies`: a tree between two offsets, all of whose nodes enclose what is below them.
* `Pieces.Lie`: the same for the parts of a string that have been read so far.
* `Phrase.Nests`: phrases whose trees lie between the offsets that their tokens stand between.
* `Expression.nests` … `Operation.nests`: the phrases of the grammar, one lemma for each.
-/

namespace Protean

/-! ### Spans

Spans between two offsets, and what covers them. -/

/-- The span lies between two offsets. -/
structure Span.Inside (lo hi : Nat) (s : Span) : Prop where
  lo_le : lo ≤ s.start
  start_le : s.start ≤ s.stop
  le_hi : s.stop ≤ hi

namespace Span.Inside

variable {lo hi lo' hi' : Nat} {s t : Span}

theorem refl (h : s.start ≤ s.stop) : s.Inside s.start s.stop := ⟨le_refl _, h, le_refl _⟩

theorem mono (h : s.Inside lo hi) (hlo : lo' ≤ lo) (hhi : hi ≤ hi') : s.Inside lo' hi' :=
  ⟨hlo.trans h.lo_le, h.start_le, h.le_hi.trans hhi⟩

/-- Where there is a span there is room for one. -/
theorem le (h : s.Inside lo hi) : lo ≤ hi := h.lo_le.trans (h.start_le.trans h.le_hi)

/-- The empty span at an offset between the two. -/
theorem empty {n : Nat} (hlo : lo ≤ n) (hhi : n ≤ hi) : (Span.empty n).Inside lo hi := ⟨hlo, le_refl n, hhi⟩

/-- What covers spans between two offsets lies between these. -/
theorem cover (hs : s.Inside lo hi) (ht : t.Inside lo hi) : (s.cover t).Inside lo hi where
  lo_le := le_min hs.lo_le ht.lo_le
  start_le := (min_le_left _ _).trans (hs.start_le.trans (le_max_left _ _))
  le_hi := max_le hs.le_hi ht.le_hi

/-- What lies between the start of one span and the stop of another is covered by both. -/
theorem covered {x : Span} (h : x.Inside s.start t.stop) : x.Inside (s.cover t).start (s.cover t).stop :=
  h.mono (min_le_left _ _) (le_max_right _ _)

end Span.Inside

/-! ### Tokens in a row

The tokens of a text stand one behind the other. -/

/-- The tokens stand one behind the other between two offsets. -/
def Token.Row : Nat → List Token → Nat → Prop
  | lo, [], hi => lo ≤ hi
  | lo, t :: ts, hi => lo ≤ t.span.start ∧ t.span.start ≤ t.span.stop ∧ Row t.span.stop ts hi

namespace Token.Row

variable {lo hi : Nat} {t : Token} {ts us : List Token}

/-- Tokens in a row stand between offsets in order. -/
theorem le : ∀ {lo : Nat} {ts : List Token}, Row lo ts hi → lo ≤ hi
  | _, [], h => h
  | _, _ :: _, h => h.1.trans (h.2.1.trans h.2.2.le)

/-- A row that is divided in two is two rows. -/
theorem split : ∀ {lo : Nat} {ts : List Token}, Row lo (ts ++ us) hi → ∃ mid, Row lo ts mid ∧ Row mid us hi
  | lo, [], h => ⟨lo, le_refl lo, h⟩
  | _, _ :: _, ⟨hlo, hstart, h⟩ => by
      obtain ⟨mid, hts, hus⟩ := h.split
      exact ⟨mid, ⟨hlo, hstart, hts⟩, hus⟩

/-- The first token of a row stands in it. -/
theorem head (h : Row lo (t :: ts) hi) : t.span.Inside lo hi := ⟨h.1, h.2.1, h.2.2.le⟩

/-- The other tokens stand behind the end of the first one. -/
theorem tail (h : Row lo (t :: ts) hi) : Row t.span.stop ts hi := h.2.2

/-- Tokens that do not overlap and stand in order are in a row. -/
theorem of_pairwise : ∀ {lo : Nat} {ts : List Token}, lo ≤ hi → (∀ t ∈ ts, t.span.Inside lo hi) →
    ts.Pairwise (fun a b => a.span.stop ≤ b.span.start) → Row lo ts hi
  | _, [], hle, _, _ => hle
  | lo, t :: ts, _, hin, hpairs => by
      obtain ⟨hhead, htail⟩ := List.forall_mem_cons.mp hin
      obtain ⟨hbehind, hpairs⟩ := List.pairwise_cons.mp hpairs
      refine ⟨hhead.lo_le, hhead.start_le, of_pairwise hhead.le_hi (fun u hu => ?_) hpairs⟩
      exact ⟨hbehind u hu, (htail u hu).start_le, (htail u hu).le_hi⟩

end Token.Row

/-! ### Trees between two offsets

Trees that lie between two offsets and are nested, node by node. -/

namespace Expr

/-- The nodes right below a node. -/
def children : Expr → List Expr
  | .identifier .. | .literal .. | .builtin .. => []
  | .bracket _ e | .field _ e _ _ | .bind _ _ _ e | .destructure _ _ e => [e]
  | .store _ target _ _ value => [target, value]
  | .call _ target args trailing | .send _ target _ _ args trailing =>
    target :: (args.map Argument.value ++ trailing)
  | .function _ _ _ body => body

/-- The span of the node contains the span of its name and the spans of its children. -/
def Encloses (e : Expr) : Prop :=
  ∃ span, e.span = some span ∧ (∃ name, e.nameSpan = some name ∧ name.Inside span.start span.stop) ∧
    ∀ c ∈ e.children, ∃ s, c.span = some s ∧ s.Inside span.start span.stop

/-- The tree lies between two offsets, and all of its nodes enclose their children. -/
structure Lies (lo hi : Nat) (e : Expr) : Prop where
  every : e.Every Encloses
  span : ∃ span, e.span = some span ∧ span.Inside lo hi

variable {P : Expr → Prop} {lo hi lo' hi' : Nat} {e c : Expr}

/-- What holds of a node, and of all nodes below it, holds of every node. -/
theorem Every.of_children (he : P e) (h : ∀ c ∈ e.children, c.Every P) : e.Every P := by
  cases e with
  | identifier => exact .identifier he
  | literal => exact .literal he
  | builtin => exact .builtin he
  | bracket => exact .bracket he (h _ (by simp [children]))
  | field => exact .field he (h _ (by simp [children]))
  | bind => exact .bind he (h _ (by simp [children]))
  | destructure => exact .destructure he (h _ (by simp [children]))
  | store => exact .store he (h _ (by simp [children])) (h _ (by simp [children]))
  | call =>
    refine .call he (h _ (by simp [children])) (fun a ha => h _ ?_) fun f hf => h _ (by simp [children, hf])
    exact List.mem_cons_of_mem _ (List.mem_append_left _ (List.mem_map_of_mem ha))
  | send =>
    refine .send he (h _ (by simp [children])) (fun a ha => h _ ?_) fun f hf => h _ (by simp [children, hf])
    exact List.mem_cons_of_mem _ (List.mem_append_left _ (List.mem_map_of_mem ha))
  | function => exact .function he h

theorem Every.child (h : e.Every P) (hc : c ∈ e.children) : c.Every P := by
  cases h with
  | identifier | literal | builtin => cases hc
  | bracket _ h | field _ h | bind _ h | destructure _ h => exact List.mem_singleton.mp hc ▸ h
  | store _ htarget hvalue =>
    rcases List.mem_cons.mp hc with rfl | hc
    · exact htarget
    · exact List.mem_singleton.mp hc ▸ hvalue
  | call _ htarget hargs htrailing | send _ htarget hargs htrailing =>
    rcases List.mem_cons.mp hc with rfl | hc
    · exact htarget
    rcases List.mem_append.mp hc with hc | hc
    · obtain ⟨a, ha, rfl⟩ := List.mem_map.mp hc
      exact hargs a ha
    · exact htrailing c hc
  | function _ hbody => exact hbody c hc

namespace Lies

/-- A tree between two offsets lies between offsets farther out. -/
theorem mono (h : e.Lies lo hi) (hlo : lo' ≤ lo) (hhi : hi ≤ hi') : e.Lies lo' hi' := by
  obtain ⟨span, hspan, hin⟩ := h.span
  exact ⟨h.every, span, hspan, hin.mono hlo hhi⟩

/-- The span of a tree lies where the tree does. -/
theorem spanOr (h : e.Lies lo hi) (other : Span) : (e.spanOr other).Inside lo hi := by
  obtain ⟨span, hspan, hin⟩ := h.span
  rwa [Expr.spanOr, hspan]

theorem tight (h : e.Lies lo hi) (other : Span) : e.Lies (e.spanOr other).start (e.spanOr other).stop := by
  obtain ⟨span, hspan, hin⟩ := h.span
  rw [Expr.spanOr, hspan]
  exact ⟨h.every, span, hspan, .refl hin.start_le⟩

/-- What lies between the start of one span and the stop of another lies where both cover. -/
theorem covered {s t : Span} (h : e.Lies s.start t.stop) : e.Lies (s.cover t).start (s.cover t).stop :=
  h.mono (min_le_left _ _) (le_max_right _ _)

theorem covered_left {s t : Span} (h : e.Lies s.start s.stop) : e.Lies (s.cover t).start (s.cover t).stop :=
  h.mono (min_le_left _ _) (le_max_left _ _)

theorem covered_right {s t : Span} (h : e.Lies t.start t.stop) : e.Lies (s.cover t).start (s.cover t).stop :=
  h.mono (min_le_right _ _) (le_max_right _ _)

/-- A node lies where its span does, if it encloses its name and children that lie in it. -/
theorem node {span name : Span} (hspan : e.span = some span) (hin : span.Inside lo hi)
    (hname : e.nameSpan = some name) (hname' : name.Inside span.start span.stop)
    (hchildren : ∀ c ∈ e.children, c.Lies span.start span.stop) : e.Lies lo hi where
  every := .of_children ⟨span, hspan, ⟨name, hname, hname'⟩, fun c hc => (hchildren c hc).span⟩
    fun c hc => (hchildren c hc).every
  span := ⟨span, hspan, hin⟩

/-- A node that has no name of its own. -/
theorem unnamed {span : Span} (hspan : e.span = some span) (hin : span.Inside lo hi)
    (hname : e.nameSpan = some span) (hchildren : ∀ c ∈ e.children, c.Lies span.start span.stop) :
    e.Lies lo hi :=
  .node hspan hin hname (.refl hin.start_le) hchildren

/-- The name of a node lies within its span. -/
theorem name (h : e.Lies lo hi) (other : Span) : ∃ name, e.nameSpan = some name ∧
    name.Inside (e.spanOr other).start (e.spanOr other).stop := by
  obtain ⟨span, hspan, hname, -⟩ := h.every.node
  rwa [Expr.spanOr, hspan]

theorem child (h : e.Lies lo hi) (hc : c ∈ e.children) (other : Span) :
    c.Lies (e.spanOr other).start (e.spanOr other).stop := by
  obtain ⟨span, hspan, -, hchildren⟩ := h.every.node
  rw [Expr.spanOr, hspan]
  exact ⟨h.every.child hc, hchildren c hc⟩

end Lies

end Expr

namespace Parser

variable {lo hi : Nat} {span stop : Span} {first : Expr} {parts : List Expr}

/-- The parts of a string that have been read lie between two offsets. -/
structure Pieces.Lie (lo hi : Nat) (p : Pieces) : Prop where
  parts : ∀ e ∈ p.parts, e.Lies lo hi
  text : ∀ s ∈ p.textSpan, s.Inside lo hi

/-- A string lies where all of its parts do. -/
theorem joinParts_lies (hspan : span.start ≤ span.stop) (hfirst : first.Lies span.start span.stop)
    (hparts : ∀ e ∈ parts, e.Lies span.start span.stop) :
    (joinParts span first parts).Lies span.start span.stop := by
  have hin : span.Inside span.start span.stop := .refl hspan
  have hplus : (Expr.identifier (.derived span) "+").Lies span.start span.stop :=
    .unnamed rfl hin rfl (List.forall_mem_nil _)
  induction parts generalizing first with
  | nil => exact hfirst
  | cons e parts ih =>
    obtain ⟨he, hparts⟩ := List.forall_mem_cons.mp hparts
    refine ih (.unnamed rfl hin rfl ?_) hparts
    simpa [binary, Expr.children] using ⟨hplus, hfirst, he⟩

namespace Pieces

variable {p : Pieces}

/-- Pieces between two offsets lie between offsets farther out. -/
theorem Lie.mono {lo' hi' : Nat} (h : p.Lie lo hi) (hlo : lo' ≤ lo) (hhi : hi ≤ hi') : p.Lie lo' hi' :=
  ⟨fun e he => (h.parts e he).mono hlo hhi, fun s hs => (h.text s hs).mono hlo hhi⟩

/-- The text read so far is a piece as well. -/
theorem Lie.textPart (h : p.Lie lo hi) {offset : Nat} (hlo : lo ≤ offset) (hhi : offset ≤ hi) :
    (p.textPart offset).Lies lo hi := by
  have hin : (p.textSpan.getD (.empty offset)).Inside lo hi := by
    cases htext : p.textSpan with
    | none => exact .empty hlo hhi
    | some s => exact h.text s htext
  exact .unnamed rfl hin rfl (List.forall_mem_nil _)

/-- More text is read between the same offsets. -/
theorem Lie.addText (h : p.Lie lo hi) {content : Token} (hc : content.span.Inside lo hi) :
    (p.addText content).Lie lo hi := by
  refine ⟨h.parts, fun s hs => ?_⟩
  obtain rfl := Option.some.inj hs
  cases htext : p.textSpan with
  | none => exact hc
  | some s => exact (h.text s htext).cover hc

theorem Lie.addPart (h : p.Lie lo hi) {offset : Nat} (hlo : lo ≤ offset) (hhi : offset ≤ hi) {e : Expr}
    (he : e.Lies lo hi) : (p.addPart offset e).Lie lo hi :=
  ⟨List.forall_mem_cons.mpr ⟨he, List.forall_mem_cons.mpr ⟨h.textPart hlo hhi, h.parts⟩⟩, nofun⟩

/-- When the closing quote has been read, the string lies between its quotes. -/
theorem Lie.build (h : p.Lie span.start stop.start) (hspan : span.start ≤ stop.start)
    (hstop : stop.start ≤ stop.stop) :
    (p.build (span.cover stop) stop).Lies (span.cover stop).start (span.cover stop).stop := by
  have hle : (span.cover stop).start ≤ (span.cover stop).stop :=
    (min_le_left _ _).trans (hspan.trans (hstop.trans (le_max_right _ _)))
  by_cases hparts : p.parts = []
  · rw [build_nil hparts]
    exact .unnamed rfl (.refl hle) rfl (List.forall_mem_nil _)
  · obtain ⟨first, others, hall⟩ := exists_allParts hparts stop.start
    have hlies : ∀ e ∈ first :: others, e.Lies (span.cover stop).start (span.cover stop).stop := by
      intro e he
      refine Expr.Lies.covered (Expr.Lies.mono ?_ (le_refl _) hstop)
      rw [← hall, List.mem_reverse, allParts] at he
      split at he
      · exact h.parts e he
      · rcases List.mem_cons.mp he with rfl | he
        · exact h.textPart hspan (le_refl _)
        · exact h.parts e he
    rw [build_cons hparts hall]
    obtain ⟨hfirst, hothers⟩ := List.forall_mem_cons.mp hlies
    exact joinParts_lies hle hfirst hothers

end Pieces

end Parser

namespace Grammar

open Token Protean.Parser

/-- The phrase stands for trees that lie where its tokens stand. -/
def Phrase.Nests (P : Phrase Expr) : Prop :=
  ∀ {ts e lo hi}, P ts e → Row lo ts hi → e.Lies lo hi

/-! ### Each construct

Expressions, bodies, functions, strings and primaries. -/

section
variable {P R : Phrase Expr} {ts : List Token} {lo mid hi : Nat}

/-- An assignment covers its target and its value, and a destructuring one its names as well. -/
theorem Expression.nests (hR : R.Nests) : (Expression R).Nests := by
  intro ts e lo hi h hrow
  cases h with
  | @destructure lparen equals ts us names value _ _ _ hvalue =>
    obtain ⟨mid, hfront, hback⟩ := hrow.split
    have hv : value.Lies equals.span.stop hi := hR hvalue hback.tail
    have hle : lo ≤ equals.span.stop := hfront.le.trans (hback.1.trans hback.2.1)
    have hin := (hfront.head.mono (le_refl _) hback.le).cover ((hv.spanOr equals.span).mono hle (le_refl _))
    exact .unnamed rfl hin rfl (List.forall_mem_singleton.mpr (hv.tight equals.span).covered_right)
  | @bind equals ts us a name value hlhs _ hvalue =>
    obtain ⟨mid, hfront, hback⟩ := hrow.split
    have hl : (Expr.identifier a name).Lies lo mid := hR hlhs hfront
    have hv : value.Lies equals.span.stop hi := hR hvalue hback.tail
    have hle : lo ≤ equals.span.stop := hfront.le.trans (hback.1.trans hback.2.1)
    have hin := ((hl.spanOr equals.span).mono (le_refl _) hback.le).cover
      ((hv.spanOr equals.span).mono hle (le_refl _))
    obtain ⟨name, hname, hin'⟩ := hl.name equals.span
    exact .node rfl hin hname (hin'.mono (min_le_left _ _) (le_max_left _ _))
      (List.forall_mem_singleton.mpr (hv.tight equals.span).covered_right)
  | @store equals ts us a target key keySpan value hlhs _ hvalue =>
    obtain ⟨mid, hfront, hback⟩ := hrow.split
    have hl : (Expr.field a target key keySpan).Lies lo mid := hR hlhs hfront
    have hv : value.Lies equals.span.stop hi := hR hvalue hback.tail
    have hle : lo ≤ equals.span.stop := hfront.le.trans (hback.1.trans hback.2.1)
    have hin := ((hl.spanOr equals.span).mono (le_refl _) hback.le).cover
      ((hv.spanOr equals.span).mono hle (le_refl _))
    obtain ⟨name, hname, hin'⟩ := hl.name equals.span
    have htarget := hl.child (List.mem_singleton_self target) equals.span
    refine .node rfl hin hname (hin'.mono (min_le_left _ _) (le_max_left _ _)) ?_
    exact List.forall_mem_cons.mpr ⟨htarget.covered_left,
      List.forall_mem_singleton.mpr (hv.tight equals.span).covered_right⟩
  | operation he => exact hR he hrow

/-- Statements stand one behind the other, each between the same offsets. -/
theorem Statements.nests (hR : R.Nests) {es : List Expr} (h : Statements R ts es) (hrow : Row lo ts hi) :
    ∀ e ∈ es, e.Lies lo hi := by
  induction h generalizing lo with
  | last he _ =>
    obtain ⟨mid, hfront, hback⟩ := hrow.split
    exact List.forall_mem_singleton.mpr ((hR he hfront).mono (le_refl _) hback.le)
  | more he _ _ _ ih =>
    obtain ⟨mid, hfront, hback⟩ := hrow.split
    obtain ⟨mid', hfirst, hseps⟩ := hfront.split
    exact List.forall_mem_cons.mpr ⟨(hR he hfirst).mono (le_refl _) (hseps.le.trans hback.le),
      fun e hmem => (ih hback e hmem).mono hfront.le (le_refl _)⟩

theorem Body.nests (hR : R.Nests) {es : List Expr} (h : Body R ts es) (hrow : Row lo ts hi) :
    ∀ e ∈ es, e.Lies lo hi := by
  cases h with
  | empty => exact List.forall_mem_nil _
  | full _ hstatements =>
    obtain ⟨mid, hfront, hback⟩ := hrow.split
    exact fun e he => (Statements.nests hR hstatements hback e he).mono hfront.le (le_refl _)

/-- A function reaches from its first bracket or brace to its last brace. -/
theorem Function.nests (hR : R.Nests) : (Function R).Nests := by
  intro ts e lo hi h hrow
  obtain @⟨lbrace, rbrace, ts, us, remarks, body, -, -, hbody, -⟩ := h
  obtain ⟨mid, hfront, hclose⟩ := hrow.split
  rw [List.append_cons] at hfront
  obtain ⟨mid', hopen, hinner⟩ := hfront.split
  have hstart : (ts.headD lbrace).span.Inside lo mid' := by
    cases ts with
    | nil => exact hopen.head
    | cons t ts => exact hopen.head
  have hin := (hstart.mono (le_refl _) (hinner.le.trans hclose.le)).cover
    (hclose.head.mono (hopen.le.trans hinner.le) (le_refl _))
  refine .unnamed rfl hin rfl fun e he => ?_
  refine Expr.Lies.covered ((Body.nests (Expression.nests hR) hbody hinner e he).mono ?_ ?_)
  · exact hstart.start_le.trans hstart.le_hi
  · exact hclose.1.trans hclose.2.1

/-- The rest of a string goes on behind the pieces that have been read, and ends with its quote. -/
theorem StringRest.nests (hR : R.Nests) {p : Pieces} {r : Pieces × Span} (h : StringRest R p ts r)
    (hp : p.Lie lo mid) (hle : lo ≤ mid) (hrow : Row mid ts hi) :
    r.1.Lie lo r.2.start ∧ lo ≤ r.2.start ∧ r.2.Inside mid hi := by
  induction h generalizing mid with
  | stop _ => exact ⟨hp.mono (le_refl _) hrow.1, hle.trans hrow.1, hrow.head⟩
  | @content p content _ _ _ _ ih =>
    have hstop : mid ≤ content.span.stop := hrow.1.trans hrow.2.1
    have hcontent : content.span.Inside lo content.span.stop := ⟨hle.trans hrow.1, hrow.2.1, le_refl _⟩
    obtain ⟨hpieces, hlo, hin⟩ := ih ((hp.mono (le_refl _) hstop).addText hcontent) (hle.trans hstop) hrow.tail
    exact ⟨hpieces, hlo, hin.mono hstop (le_refl _)⟩
  | @interpolation p mark rbrace ts us e r _ he _ _ ih =>
    obtain ⟨mid', hfront, hback⟩ := hrow.split
    have hstop : mid' ≤ rbrace.span.stop := hback.1.trans hback.2.1
    have hmid : mid ≤ rbrace.span.stop := hfront.le.trans hstop
    have hmark : mark.span.start ≤ rbrace.span.stop := hfront.head.start_le.trans (hfront.head.le_hi.trans hstop)
    have he : e.Lies lo rbrace.span.stop := (Expression.nests hR he hfront.tail).mono
      (hle.trans (hfront.1.trans hfront.2.1)) hstop
    have hpart := (hp.mono (le_refl _) hmid).addPart (hle.trans hfront.1) hmark he
    obtain ⟨hpieces, hlo, hin⟩ := ih hpart (hle.trans hmid) hback.tail
    exact ⟨hpieces, hlo, hin.mono hmid (le_refl _)⟩

/-- A primary is a token, a function, a string, or has brackets around it. -/
theorem Primary.nests (hR : R.Nests) : (Primary R).Nests := by
  intro ts e lo hi h hrow
  cases h with
  | name _ => exact .unnamed rfl hrow.head rfl (List.forall_mem_nil _)
  | number _ => exact .unnamed rfl hrow.head rfl (List.forall_mem_nil _)
  | @string quote ts pieces stop _ hrest =>
    have hquote : Pieces.Lie quote.span.start quote.span.stop ⟨[], "", none⟩ :=
      ⟨List.forall_mem_nil _, nofun⟩
    obtain ⟨hpieces, hle, hstop⟩ := hrest.nests hR hquote hrow.2.1 hrow.tail
    have hin := hrow.head.cover (hstop.mono (hrow.1.trans hrow.2.1) (le_refl _))
    exact (hpieces.build hle hstop.start_le).mono hin.lo_le hin.le_hi
  | function hfunction => exact Function.nests hR hfunction hrow
  | @bracket lparen rparen ts e _ he _ =>
    obtain ⟨mid, hfront, hclose⟩ := hrow.split
    have he := Expression.nests hR he hfront.tail
    have hin := (hfront.head.mono (le_refl _) hclose.le).cover (hclose.head.mono hfront.le (le_refl _))
    refine .unnamed rfl hin rfl (List.forall_mem_singleton.mpr (Expr.Lies.covered (he.mono ?_ ?_)))
    · exact hfront.2.1
    · exact hclose.1.trans hclose.2.1

/-! ### Calls and fields

What grows to the right from an operand that has been read. -/

/-- The value of an argument stands behind its name. -/
theorem Passed.nests (hR : R.Nests) {a : Argument Expr} (h : Passed R ts a) (hrow : Row lo ts hi) :
    a.value.Lies lo hi := by
  cases h with
  | named _ _ hvalue =>
    have hle := hrow.1.trans (hrow.2.1.trans (hrow.tail.1.trans hrow.tail.2.1))
    exact (hR hvalue hrow.tail.tail).mono hle (le_refl _)
  | positional hvalue => exact hR hvalue hrow

theorem Separated.nests (hR : R.Nests) {args : List (Argument Expr)} (h : Separated (Passed R) ts args)
    (hrow : Row lo ts hi) : ∀ a ∈ args, a.value.Lies lo hi := by
  induction h generalizing lo with
  | last ha => exact List.forall_mem_singleton.mpr (ha.nests hR hrow)
  | more ha _ _ ih =>
    obtain ⟨mid, hfront, hback⟩ := hrow.split
    refine List.forall_mem_cons.mpr ⟨(ha.nests hR hfront).mono (le_refl _) hback.le, fun a hmem => ?_⟩
    exact (ih hback.tail a hmem).mono (hfront.le.trans (hback.1.trans hback.2.1)) (le_refl _)

/-- Arguments in parentheses end with the closing one. -/
theorem Parens.nests (hR : R.Nests) {r : List (Argument Expr) × Span} (h : Parens R ts r)
    (hrow : Row lo ts hi) : r.2.Inside lo hi ∧ ∀ a ∈ r.1, a.value.Lies lo r.2.stop := by
  cases h with
  | empty _ _ =>
    exact ⟨hrow.tail.head.mono (hrow.1.trans hrow.2.1) (le_refl _), List.forall_mem_nil _⟩
  | @full lparen rparen ts us args _ hargs _ _ =>
    obtain ⟨mid, hfront, hclose⟩ := hrow.split
    obtain ⟨mid', hargs', hcomma⟩ := hfront.split
    refine ⟨hclose.head.mono hfront.le (le_refl _), fun a ha => ?_⟩
    exact (hargs.nests hR hargs'.tail a ha).mono (hargs'.1.trans hargs'.2.1)
      (hcomma.le.trans (hclose.1.trans hclose.2.1))

/-- Functions behind `stop`, which ends in front of them. -/
theorem Repeated.nests (hR : R.Nests) {functions : List Expr} (h : Repeated (Function R) ts functions)
    {stop : Span} (hstop : stop.Inside lo hi) (hle : lo ≤ mid) (hrow : Row mid ts hi) :
    (stopOf functions stop).Inside lo hi ∧ (∀ f ∈ functions, f.Lies lo (stopOf functions stop).stop) ∧
      (stop.stop ≤ mid → stop.stop ≤ (stopOf functions stop).stop) := by
  induction h generalizing mid stop with
  | nil => exact ⟨hstop, List.forall_mem_nil _, fun _ => le_refl _⟩
  | @cons ts us f functions hf _ ih =>
    obtain ⟨mid', hfront, hback⟩ := hrow.split
    have hf := Function.nests hR hf hfront
    have hin := hf.spanOr stop
    obtain ⟨hstops, hlies, hmono⟩ := ih (hin.mono hle hback.le) (hle.trans hfront.le) hback
    have hlast : (f.spanOr stop).stop ≤ (stopOf functions (f.spanOr stop)).stop := hmono hin.le_hi
    refine ⟨hstops, List.forall_mem_cons.mpr ⟨?_, hlies⟩, fun hmid => ?_⟩
    · exact (hf.tight stop).mono (hle.trans hin.lo_le) hlast
    · exact hmid.trans (hin.lo_le.trans (hin.start_le.trans hlast))

/-- The arguments of a call end with the last function behind them, or with the closing parenthesis. -/
theorem CallArgs.nests (hR : R.Nests) {a : Arguments} (h : CallArgs R ts a) (hrow : Row lo ts hi) :
    a.stop.Inside lo hi ∧ ∀ e ∈ a.args.map Argument.value ++ a.trailing, e.Lies lo a.stop.stop := by
  cases h with
  | @parens ts us args stop functions hparens hfunctions =>
    obtain ⟨mid, hfront, hback⟩ := hrow.split
    obtain ⟨hstop, hargs⟩ := hparens.nests hR hfront
    obtain ⟨hstops, hlies, hmono⟩ :=
      hfunctions.nests hR (hstop.mono (le_refl _) hback.le) hfront.le hback
    refine ⟨hstops, List.forall_mem_append.mpr ⟨fun e he => ?_, hlies⟩⟩
    obtain ⟨a, ha, rfl⟩ := List.mem_map.mp he
    exact (hargs a ha).mono (le_refl _) (hmono hstop.le_hi)
  | functions hfunctions =>
    obtain ⟨hstops, hlies, -⟩ := hfunctions.nests hR hrow.head (le_refl _) hrow
    exact ⟨hstops, hlies⟩

/-- Each call reaches from the start of what is called to the end of its arguments, so a chain of calls grows to
the right. -/
theorem Calls.nests (hR : R.Nests) {e e' : Expr} (h : Calls R e ts e') (he : e.Lies lo mid)
    (hrow : Row mid ts hi) : e'.Lies lo hi := by
  induction h generalizing mid with
  | nil => exact he.mono (le_refl _) hrow.le
  | @cons e e' t ts us a ha _ ih =>
    obtain ⟨mid', hfront, hback⟩ := hrow.split
    obtain ⟨hstop, hlies⟩ := ha.nests hR hfront
    have hin := he.spanOr t.span
    refine ih (.unnamed rfl ((hin.mono (le_refl _) hfront.le).cover (hstop.mono hin.le (le_refl _))) rfl ?_) hback
    refine List.forall_mem_cons.mpr ⟨(he.tight t.span).covered_left, fun e' he' => ?_⟩
    exact Expr.Lies.covered ((hlies e' he').mono (hin.start_le.trans hin.le_hi) (le_refl _))

/-- Each field reaches from the start of its target to its key, and its calls go on from there. -/
theorem Fields.nests (hR : R.Nests) {e e' : Expr} (h : Fields R e ts e') (he : e.Lies lo mid)
    (hrow : Row mid ts hi) : e'.Lies lo hi := by
  induction h generalizing mid with
  | nil => exact he.mono (le_refl _) hrow.le
  -- the field starts where its target does and ends with its key
  | @field e e' dot t ts key _ _ _ ih =>
    have hin := he.spanOr dot.span
    have hkey : t.span.Inside mid t.span.stop :=
      ⟨hrow.1.trans (hrow.2.1.trans hrow.tail.1), hrow.tail.2.1, le_refl _⟩
    have hspan := (hin.mono (le_refl _) hkey.le).cover (hkey.mono hin.le (le_refl _))
    have hname := (Span.Inside.refl hkey.start_le).mono (min_le_right (e.spanOr dot.span).start _)
      (le_max_right (e.spanOr dot.span).stop _)
    refine ih (.node rfl hspan rfl hname ?_) hrow.tail.tail
    exact List.forall_mem_singleton.mpr (he.tight dot.span).covered_left
  -- the call of a method ends with its arguments, and the calls on it go on from there
  | @send e called e' dot t ts us vs key a _ _ ha hcalls _ ih =>
    obtain ⟨mid', hfront, hback⟩ := hrow.split
    obtain ⟨mid'', hsend, hcalled⟩ := hfront.split
    obtain ⟨hstop, hlies⟩ := ha.nests hR hsend.tail.tail
    have hin := he.spanOr dot.span
    have hkey : t.span.Inside mid t.span.stop :=
      ⟨hsend.1.trans (hsend.2.1.trans hsend.tail.1), hsend.tail.2.1, le_refl _⟩
    have hfirst : (e.spanOr dot.span).start ≤ mid := hin.start_le.trans hin.le_hi
    have hspan := (hin.mono (le_refl _) hsend.le).cover (hstop.mono (hin.le.trans hkey.le) (le_refl _))
    have hname : t.span.Inside (e.spanOr dot.span).start a.stop.stop :=
      hkey.mono hfirst (hstop.lo_le.trans hstop.start_le)
    refine ih (hcalls.nests hR (.node rfl hspan rfl hname.covered ?_) hcalled) hback
    refine List.forall_mem_cons.mpr ⟨(he.tight dot.span).covered_left, fun e' he' => ?_⟩
    exact Expr.Lies.covered ((hlies e' he').mono (hfirst.trans hkey.le) (le_refl _))

/-- An access starts with its primary, which all calls and fields behind it enclose. -/
theorem Access.nests (hR : R.Nests) : (Access R).Nests := by
  intro ts e lo hi h hrow
  obtain ⟨hprimary, hcalls, hfields⟩ := h
  obtain ⟨mid, hfront, hback⟩ := hrow.split
  obtain ⟨mid', hfirst, hcalled⟩ := hfront.split
  exact hfields.nests hR (hcalls.nests hR (Primary.nests hR hprimary hfirst) hcalled) hback

/-! ### Operations and programs

The knot is tied, and programs are read off their bodies. -/

/-- Each operation reaches from its first operand to the right operand of its operator. -/
theorem Operator.nests (hP : P.Nests) {rights : List (Token × Expr)} (h : Repeated (Operator P) ts rights)
    {first : Expr} (hfirst : first.Lies lo mid) (hrow : Row mid ts hi) :
    (rights.foldl applied first).Lies lo hi := by
  induction h generalizing first mid with
  | nil => exact hfirst.mono (le_refl _) hrow.le
  | cons hright _ ih =>
    obtain @⟨operator, ts, rhs, -, hrhs⟩ := hright
    obtain ⟨mid', hfront, hback⟩ := hrow.split
    have hr : rhs.Lies operator.span.stop mid' := hP hrhs hfront.tail
    have hl := hfirst.spanOr operator.span
    have hr' := hr.spanOr operator.span
    have hspan := (hl.mono (le_refl _) hfront.le).cover
      (hr'.mono (hl.le.trans (hfront.1.trans hfront.2.1)) (le_refl _))
    have hname : operator.span.Inside (first.spanOr operator.span).start (rhs.spanOr operator.span).stop :=
      ⟨(hl.start_le.trans hl.le_hi).trans hfront.1, hfront.2.1, hr'.lo_le.trans hr'.start_le⟩
    have hoperator := Expr.Lies.unnamed (e := .identifier (.placed operator.span) operator.lexeme) rfl
      hname.covered rfl (List.forall_mem_nil _)
    refine ih (.unnamed rfl hspan rfl ?_) hback
    simpa [applied, binary, Expr.children] using
      ⟨hoperator, (hfirst.tight operator.span).covered_left, (hr.tight operator.span).covered_right⟩

/-- Operands with operators between them, from left to right. -/
theorem Chain.nests (hP : P.Nests) : (Chain P).Nests := by
  intro ts e lo hi h hrow
  obtain ⟨hfirst, hrights⟩ := h
  obtain ⟨mid, hfront, hback⟩ := hrow.split
  exact Operator.nests hP hrights (hP hfirst hfront) hback

end

/-- Operations, as the least phrase that is closed under its own construction. -/
theorem Operation.nests : Phrase.Nests Operation := by
  intro ts e lo hi h
  refine Operation.least (R := fun ts e => ∀ {lo hi}, Row lo ts hi → e.Lies lo hi) ?_ h
  exact fun ts e h => Chain.nests (Access.nests fun h hrow => h hrow) h

/-- **What a program stands for** is trees whose nodes enclose their children. -/
theorem Program.nests {ts : List Token} {es : List Expr} {lo hi : Nat} (h : Program ts es) (hrow : Row lo ts hi) :
    ∀ e ∈ es, e.Lies lo hi := by
  obtain ⟨hbody, -⟩ := h
  obtain ⟨mid, hfront, hback⟩ := hrow.split
  exact fun e he => (Body.nests (Expression.nests Operation.nests) hbody hfront e he).mono (le_refl _) hback.le

end Grammar

/-! ### Texts

What holds of all spans of a text, for both readers. -/

/-- The span does not stop before it starts, ends within the text, and cuts no character. -/
structure Span.InText (text : String) (s : Span) : Prop where
  start_le : s.start ≤ s.stop
  stop_le : s.stop ≤ text.utf8ByteSize
  start_place : Text.IsPlace text.toList s.start
  stop_place : Text.IsPlace text.toList s.stop

/-- A span whose ends are places of a text lies in the text. -/
theorem Span.Sited.inText {text : String} {s : Span} (h : s.Sited (Text.IsPlace text.toList)) : s.InText text :=
  ⟨h.start_le, (Text.utf8ByteSize_eq text).symm ▸ h.stop.le, h.start, h.stop⟩

/-- The tokens of a text stand in a row. -/
theorem Token.ofText_row (text : String) : Token.Row 0 (Token.ofText text).tokens text.utf8ByteSize := by
  refine .of_pairwise (Nat.zero_le _) (fun t ht => ?_) (Token.ofText_laid text).ordered.2
  have hin := (Token.ofText_sited text t ht).inText
  exact ⟨Nat.zero_le _, hin.start_le, hin.stop_le⟩

/-- **Spans are sound.**  Whatever the text is and whoever reads it, every node that is read has a span, and the
spans of nodes, of their names and of all diagnostics lie in the text, between characters of it.  In what a strict
reader accepts, the span of each node contains the span of its name and the spans of its children. -/
theorem spans_are_sound (text : String) :
    (∀ policy, (∀ e ∈ (Expr.parse policy text).exprs.getD [], ∀ n ∈ e.nodes,
        (∃ span, n.span = some span ∧ span.InText text) ∧ ∃ name, n.nameSpan = some name ∧ name.InText text) ∧
      ∀ d ∈ (Expr.parse policy text).diagnostics, ∃ span, d.span = some span ∧ span.InText text) ∧
    ∀ e ∈ (Expr.parse .strict text).exprs.getD [], ∀ n ∈ e.nodes, n.Encloses := by
  refine ⟨fun policy => ?_, fun e he n hn => ?_⟩
  -- spans are copied or joined from tokens, whatever the policy
  · obtain ⟨hexprs, hgrammar⟩ := Expr.sited_of_parse (Token.ofText_sited text) policy
    refine ⟨fun e he n hn => ?_, fun d hd => ?_⟩
    · obtain ⟨⟨span, hspan, hin⟩, name, hname, hin'⟩ := (hexprs e he).forall_mem_nodes n hn
      exact ⟨⟨span, hspan, hin.inText⟩, name, hname, hin'.inText⟩
    · rcases List.mem_append.mp hd with hd | hd
      · obtain ⟨error, herror, rfl⟩ := List.mem_map.mp hd
        have hlexical : (Expr.parse policy text).lexical = (Token.ofText text).errors := by
          obtain ⟨es, s, -, hparse⟩ := Expr.parse_done policy text
          rw [hparse]
        exact ⟨_, rfl, (Token.ofText_faultless text error (hlexical ▸ herror)).inText⟩
      · obtain ⟨error, herror, rfl⟩ := List.mem_map.mp hd
        exact ⟨_, rfl, (hgrammar error herror).inText⟩
  -- a text that is accepted is a program of the grammar, over tokens in a row
  · obtain ⟨es, s, hread, hparse⟩ := Expr.parse_done .strict text
    rw [hparse] at he
    dsimp only at he
    split at he
    · rename_i hfine
      have herrors : s.errors = [] := by simpa using (Bool.and_eq_true_iff.mp hfine).2
      have hprogram := Parser.program_of_read hread herrors
      exact (hprogram.nests (Token.ofText_row text) e he).every.forall_mem_nodes n hn
    · cases he

/-- The string is a call of `+` that spans it, and so does the name `+`; the empty text in front of the
interpolation stands where that starts. -/
example : (((Expr.parse .strict "\"$\x7bx\x7d\"").exprs.getD []).flatMap Expr.nodes).map Expr.span =
    [some ⟨0, 6⟩, some ⟨0, 6⟩, some ⟨1, 1⟩, some ⟨3, 4⟩] := rfl

end Protean
