import Protean.Proofs.Parser.Acceptance
import Protean.Proofs.Parser.Balance
import Protean.Proofs.Parser.Places

/-!
# Proofs — Parser — reading is compositional

A text that a strict reader accepts can be put in front of any other text, with a newline between the two:
the expressions of the first are read as they were, and those of the second as if it stood alone, but for
their places.  The tokens are put together by `Token.ofText_join`, which asks the first text to end outside
of all delimiters; this it does because its tokens are balanced.  The reader passes from the first text to
the second in two stretches:

* up to the newline it reads in parallel with the strict reader of the first text (`program_front`), in an
  open frame, as neither has anything to complain about;
* behind the newline it reads in parallel with the reader of the second text (`program_rest`), in a closed
  frame, whatever there is to complain about.
-/

namespace Protean

namespace Parser

open Grammar

/-! ### Behind the newline

The second text is read as if it stood alone. -/

/-- A reader that comes to tokens of another text, moved, with nothing to complain about goes on as the
reader of that text. -/
theorem program_rest {P : Nat → Prop} {move : Nat → Nat} (mono : Monotone move) {policy : Policy}
    {tokens : List Token} {eof : Token} (heof : eof.kind = .eof) (hsited : eof.span.Sited P)
    (htokens : ∀ t ∈ tokens, t.kind ≠ .eof ∧ t.span.Sited P) {fuel fuel' rounds' : Nat} {es : List Expr}
    {s : State} (hread : program policy fuel (.start (tokens ++ [eof])) = .done es s)
    (hfuel : fuel ≤ fuel') (hrounds : fuel ≤ rounds') (read' : List Expr) {s' : State}
    (hrest : s'.rest = (tokens ++ [eof]).map (Token.relocate move)) (herrors : s'.errors = []) :
    ∃ s₁', block .eof (expression policy (operation policy fuel')) rounds' read' s' =
        .done (read'.reverse ++ Expr.relocateAll move es) s₁' ∧
      s₁'.errors = s.errors.map (GrammarError.relocate move) := by
  let F := Frame.whole move mono P policy s'.consumed eof heof hsited
  have halign : F.Aligned (.start (tokens ++ [eof])) s' := by
    refine ⟨tokens, rfl, ?_, htokens, (Nat.zero_add _).symm, fun hne => absurd rfl hne, herrors,
      List.forall_mem_nil _⟩
    rw [hrest, List.map_append]
    rfl
  have hgood : F.Good (program policy fuel (.start (tokens ++ [eof]))) := by
    rw [hread]
    exact .inl rfl
  obtain ⟨es₁, s₁, s₁', hleft, hright, -, x, hx⟩ :=
    (Frame.program_settles hfuel hrounds read' hgood halign).of_closed rfl
  cases hread.symm.trans hleft
  exact ⟨s₁', hright, hx.errors⟩

/-! ### Up to the newline

The first text is read as it was. -/

/-- The frame of a text and the same text with more behind a newline. -/
def Frame.front (P : Nat → Prop) (policy : Policy) (stop : Token) (behind : List Token) (newline : Token)
    (behind' : List Token) (hnewline : newline.kind = .newline)
    (hstop : stop.kind = .eof ∨ stop.kind = .newline ∧ ∃ t r, behind = t :: r ∧ t.kind = .eof) : Frame where
  move := id
  mono := monotone_id
  site := P
  ahead := 0
  left := .strict
  right := policy
  stop := stop
  behind := behind
  stop' := newline
  behind' := behind'
  closed := false
  of_closed := nofun
  of_open := fun _ => ⟨rfl, hnewline, hstop⟩

/-- A reader of a text with more behind a newline reads what the strict reader of the text reads, if that
one has nothing to complain about, and comes to the newline with nothing to complain about itself. -/
theorem program_front {P : Nat → Prop} (policy : Policy) {x behind : List Token} (behind' : List Token)
    {stop newline : Token} (hnewline : newline.kind = .newline)
    (hstop : stop.kind = .eof ∨ stop.kind = .newline ∧ ∃ t r, behind = t :: r ∧ t.kind = .eof)
    (hx : ∀ t ∈ x, t.kind ≠ .eof ∧ t.span.Sited P) {fuel fuel' : Nat} {es : List Expr} {s : State}
    (hread : program .strict fuel (.start (x ++ stop :: behind)) = .done es s) (herrors : s.errors = [])
    (hfuel : fuel ≤ fuel') :
    ∃ rounds s', program policy fuel' (.start (x ++ newline :: behind')) =
        block .eof (expression policy (operation policy fuel')) rounds es.reverse s' ∧
      fuel' ≤ rounds + x.length ∧ s'.rest = newline :: behind' ∧ s'.errors = [] := by
  let F := Frame.front P policy stop behind newline behind' hnewline hstop
  have habreast : F.Abreast x (.start (x ++ stop :: behind)) (.start (x ++ newline :: behind')) := by
    refine ⟨rfl, ?_, hx, rfl, fun hne => absurd rfl hne, rfl, List.forall_mem_nil _⟩
    show x ++ newline :: behind' = x.map (Token.relocate id) ++ newline :: behind'
    rw [Token.relocate_id, List.map_id]
  have hgood : F.Good (program .strict fuel (.start (x ++ stop :: behind))) := by
    rw [hread]
    exact .inr herrors
  have hsettles := Frame.program_settles hfuel hfuel [] hgood ⟨x, habreast⟩
  have hprogram : program policy fuel' (.start (x ++ newline :: behind')) =
      block .eof (expression F.right (operation F.right fuel')) fuel' []
        (.start (x ++ newline :: behind')) := rfl
  have hleft : program F.left fuel (.start (x ++ stop :: behind)) = .done es s := hread
  rw [hleft] at hsettles
  rw [hprogram]
  generalize hreply : block .eof (expression F.right (operation F.right fuel')) fuel' []
    (.start (x ++ newline :: behind')) = r' at hsettles ⊢
  cases hsettles with
  | @finish es _ s₁' _ halign _ =>
    -- both would be at an end, but the text on the right has none here
    have hend' : s₁'.kind = .eof := by simpa [State.atEnd] using block_atEnd fuel' [] _ hreply
    have hend : s.kind = .eof := by simpa [State.atEnd] using block_atEnd fuel [] _ hread
    obtain ⟨_ | ⟨t, y⟩, hy⟩ := halign
    · rw [State.kind, hy.peek_stop.2] at hend'
      exact absurd (hend'.symm.trans hnewline) (by decide)
    · exact absurd (hy.kind.1.symm.trans hend) (hy.known t List.mem_cons_self).1
  | @halt es s₁ s₁' rounds₁ _ hhalt hlater hrounds =>
    have hconsumed : s₁'.consumed = x.length := by
      have hsum := hlater.consumed
      have hcount : s₁'.consumed = s₁.consumed + 0 := hhalt.consumed
      rw [hhalt.rest] at hsum
      simp only [State.start, List.length_append, List.length_cons, List.length_nil] at hsum
      have hstop : F.stop = stop ∧ F.behind = behind := ⟨rfl, rfl⟩
      rw [hstop.2] at hsum
      omega
    have hnone : s₁'.errors = [] := by
      rw [hhalt.errors, ← Frame.errors_skipSeparators s₁, herrors]
      rfl
    refine ⟨rounds₁, s₁', ?_, ?_, hhalt.rest', hnone⟩
    · show block .eof _ rounds₁ ((Expr.relocateAll id es).reverse ++ []) s₁' = _
      rw [Expr.relocateAll_id, List.append_nil]
      rfl
    · rw [← hconsumed]
      exact hrounds

/-! ### Both together

What this says of the two texts and their places. -/

/-- Without tokens there is nothing to read. -/
theorem program_of_eof {policy : Policy} {fuel : Nat} {eof : Token} (heof : eof.kind = .eof)
    {es : List Expr} {s : State} (h : program policy fuel (.start [eof]) = .done es s) : es = [] := by
  cases fuel with
  | zero => cases h
  | succ fuel =>
    have hkind : (State.start [eof]).kind = .eof := heof
    rw [program, block_succ, State.skipSeparators_settled (by simp [State.atSeparator, hkind]),
      if_pos (by simp [State.atEnd, hkind])] at h
    cases h
    rfl

/-- **The program of two texts with a newline between them**, where the first is read without complaint. -/
theorem program_join {P Q : Nat → Prop} {move : Nat → Nat} (mono : Monotone move) {policy : Policy}
    {ts before us : List Token} {eof eof' : Token} (hlined : Lexer.State.Lined ts before)
    (heof : eof.kind = .eof) (hts : ∀ t ∈ ts, t.kind ≠ .eof ∧ t.span.Sited P)
    (heof' : eof'.kind = .eof) (hsited : eof'.span.Sited Q)
    (hus : ∀ t ∈ us, t.kind ≠ .eof ∧ t.span.Sited Q) {fuel fuel' total : Nat} {es es' : List Expr}
    {s s' : State} (hread : program .strict fuel (.start (ts ++ [eof])) = .done es s)
    (herrors : s.errors = []) (hread' : program policy fuel' (.start (us ++ [eof'])) = .done es' s')
    (hfuel : fuel ≤ total) (hfuel' : fuel' + before.length ≤ total) :
    ∃ s₁, program policy total (.start (before ++ (us ++ [eof']).map (Token.relocate move))) =
        .done (es ++ Expr.relocateAll move es') s₁ ∧
      s₁.errors = s'.errors.map (GrammarError.relocate move) := by
  cases hlined with
  | empty hnil =>
    subst hnil
    rw [program_of_eof heof hread]
    exact program_rest mono heof' hsited hus hread' hfuel' hfuel' [] rfl rfl
  | @line x newline hnewline hcases =>
    rw [List.length_append, List.length_singleton] at hfuel'
    rw [List.append_assoc, List.singleton_append]
    -- where the first text ends: behind the tokens in common, perhaps with a newline of its own
    obtain ⟨stop, behind, hsplit, hstop, hx⟩ : ∃ stop behind, ts ++ [eof] = x ++ stop :: behind ∧
        (stop.kind = .eof ∨ stop.kind = .newline ∧ ∃ t r, behind = t :: r ∧ t.kind = .eof) ∧
          ∀ t ∈ x, t.kind ≠ .eof ∧ t.span.Sited P := by
      rcases hcases with rfl | rfl
      · exact ⟨eof, [], rfl, .inl heof, hts⟩
      · exact ⟨newline, [eof], by simp, .inr ⟨hnewline, eof, [], rfl, heof⟩,
          (List.forall_mem_append.mp hts).1⟩
    rw [hsplit] at hread
    obtain ⟨rounds, t, hfront, hrounds, hrest, hnone⟩ := program_front policy
      ((us ++ [eof']).map (Token.relocate move)) hnewline hstop hx hread herrors hfuel
    obtain ⟨rounds, rfl⟩ : ∃ r, rounds = r + 1 := ⟨rounds - 1, by omega⟩
    have hkind : t.kind = .newline := by rw [State.kind, State.peek_of_rest hrest, hnewline]
    obtain ⟨r, hrest', hadvance⟩ := State.rest_of_kind (s := t) (by simp [hkind])
    have hr : t.advance.rest = (us ++ [eof']).map (Token.relocate move) := by
      rw [hadvance]
      exact (List.cons.inj (hrest'.symm.trans hrest)).2
    have hskip := State.skipSeparators_advance (s := t) (by simp [State.atSeparator, hkind])
    rw [hfront, Frame.block_skip hskip]
    have hfuel₁ : fuel' ≤ total := by omega
    have hrounds₁ : fuel' ≤ rounds + 1 := by omega
    obtain ⟨s₁, hrun, herrors₁⟩ := program_rest mono heof' hsited hus hread' hfuel₁ hrounds₁ es.reverse hr
      ((State.errors_advance t).trans hnone)
    exact ⟨s₁, by rw [hrun, List.reverse_reverse], herrors₁⟩

end Parser

open Protean.Parser

/-- A text that a strict reader accepts has no errors, and its program is read without complaint. -/
theorem Expr.read_of_accepted {text : String} {es : List Expr}
    (h : (Expr.parse .strict text).exprs = some es) : (Token.ofText text).errors = [] ∧
      ∃ s, program .strict ((Token.ofText text).tokens.length + 2) (.start (Token.ofText text).tokens) =
        .done es s ∧ s.errors = [] := by
  obtain ⟨es', s, hread, hparse⟩ := Expr.parse_done .strict text
  rw [hparse] at h
  dsimp only at h
  split at h
  · rename_i hsound
    cases h
    simp only [reduceCtorEq, decide_false, Bool.false_or, Bool.and_eq_true, List.isEmpty_iff,
      List.reverse_eq_nil_iff] at hsound
    exact ⟨hsound.1, s, hread, hsound.2⟩
  · cases h

/-- Only a strict reader gives no expressions, and only where there is an error. -/
theorem Expr.parse_exprs_eq_none (policy : Policy) (text : String) :
    (Expr.parse policy text).exprs = none ↔
      policy = .strict ∧ (Expr.parse policy text).hasErrors = true := by
  obtain ⟨es, s, -, hparse⟩ := Expr.parse_done policy text
  rw [hparse, Parsed.hasErrors]
  cases policy with
  | tolerant => simp
  | strict => simpa using imp_iff_not_or

/-- The tokens of a text but for the last are not its end, and all of them have their places. -/
theorem Expr.tokens_known {text : String} {ts : List Token} {eof : Token}
    (h : (Token.ofText text).tokens = ts ++ [eof]) :
    (∀ t ∈ ts, t.kind ≠ .eof ∧ t.span.Sited (Text.IsPlace text.toList)) ∧
      eof.span.Sited (Text.IsPlace text.toList) := by
  obtain ⟨inner, last, hspec, -, hinner⟩ := Token.ofText_spec text
  obtain ⟨rfl, -⟩ := List.append_inj' (h.symm.trans hspec) rfl
  have hsited := Token.ofText_sited text
  rw [h, List.forall_mem_append, List.forall_mem_singleton] at hsited
  exact ⟨fun t ht => ⟨(hinner t ht).1, hsited.1 t ht⟩, hsited.2⟩

/-- **Reading is compositional.**  Let a strict reader accept a text that does not end inside of a block
comment.  With a newline and any other text behind it, in either mode, the expressions are those of the
first text and then those of the second, read alone in that mode, with all places moved by the bytes of the
first text and the newline; the errors are those of the second text, moved likewise; and there are no
expressions just if the reader is strict and the second text alone has an error. -/
theorem reading_is_compositional {a : String} {es : List Expr}
    (haccepted : (Expr.parse .strict a).exprs = some es) (hcomment : Token.endsInComment a = false)
    (policy : Policy) (b : String) :
    let whole := Expr.parse policy (a ++ "\n" ++ b)
    let alone := Expr.parse policy b
    let move := fun offset => offset + (a.utf8ByteSize + 1)
    whole.exprs = alone.exprs.map (fun es' => es ++ Expr.relocateAll move es') ∧
      whole.lexical = alone.lexical.map (LexicalError.relocate move) ∧
      whole.grammar = alone.grammar.map (GrammarError.relocate move) ∧
      (whole.exprs = none ↔ policy = .strict ∧ alone.hasErrors = true) := by
  intro whole alone move
  obtain ⟨hlexed, s, hread, hnone⟩ := Expr.read_of_accepted haccepted
  obtain ⟨es', s', hread', halone⟩ := Expr.parse_done policy b
  obtain ⟨all, s₀, hwhole, hparse⟩ := Expr.parse_done policy (a ++ "\n" ++ b)
  obtain ⟨ts, eof, before, htokens, heof, hlined, hjoined, herrors⟩ :=
    Token.ofText_join hlexed (program_of_read hread hnone).nesting_eq_zero hcomment b
  have hts := Expr.tokens_known htokens
  obtain ⟨us, eof', htokens', heof', -⟩ := Token.ofText_spec b
  have hus := Expr.tokens_known htokens'
  -- the program of the whole text, by those of its parts
  rw [hjoined, htokens'] at hwhole
  rw [htokens] at hread
  rw [htokens'] at hread'
  have hmono : Monotone move := fun _ _ h => Nat.add_le_add_right h _
  have hlength := hlined.length_le
  have hfuel : (ts ++ [eof]).length + 2 ≤
      (before ++ (us ++ [eof']).map (Token.relocate move)).length + 2 := by
    simp
    omega
  have hfuel' : (us ++ [eof']).length + 2 + before.length ≤
      (before ++ (us ++ [eof']).map (Token.relocate move)).length + 2 := by
    simp
    omega
  obtain ⟨s₁, hrun, hgrammar⟩ := program_join hmono hlined heof hts.1 heof' hus.2 hus.1 hread hnone hread'
    hfuel hfuel'
  cases hwhole.symm.trans hrun
  have hexprs : whole.exprs = alone.exprs.map fun es' => es ++ Expr.relocateAll move es' := by
    simp only [whole, alone, hparse, halone, herrors, hgrammar]
    simp only [List.isEmpty_map, List.isEmpty_reverse]
    split <;> rfl
  refine ⟨hexprs, ?_, ?_, ?_⟩
  · simp only [whole, alone, hparse, halone, herrors]
    rfl
  · simp only [whole, alone, hparse, halone, hgrammar, List.map_reverse]
  · rw [hexprs, Option.map_eq_none_iff]
    exact Expr.parse_exprs_eq_none policy b

/-- A text that ends in a comment, and one that starts with a sign and has an unknown character and a number
too many: the tolerant reader complains about the second one only, 23 bytes further on. -/
theorem reading_is_compositional_lines :
    let whole := Expr.parse .tolerant ("x = f(\"s$\x7by\x7d\") // note" ++ "\n" ++ "-1 § 2")
    Token.endsInComment "x = f(\"s$\x7by\x7d\") // note" = false ∧
      (∃ es es', (Expr.parse .strict "x = f(\"s$\x7by\x7d\") // note").exprs = some es ∧
        (Expr.parse .tolerant "-1 § 2").exprs = some es' ∧
          whole.exprs = some (es ++ Expr.relocateAll (· + 23) es')) ∧
      whole.lexical = [⟨.unexpectedCharacter '§', ⟨26, 28⟩⟩] ∧
      whole.grammar = [⟨.expectedSeparator, ⟨29, 30⟩⟩] := by
  intro whole
  obtain ⟨es, haccepted⟩ :
      ∃ es, (Expr.parse .strict "x = f(\"s$\x7by\x7d\") // note").exprs = some es := ⟨_, rfl⟩
  obtain ⟨es', halone⟩ : ∃ es', (Expr.parse .tolerant "-1 § 2").exprs = some es' := ⟨_, rfl⟩
  have hcomment : Token.endsInComment "x = f(\"s$\x7by\x7d\") // note" = false := rfl
  obtain ⟨hexprs, hlexical, hgrammar, -⟩ :=
    reading_is_compositional haccepted hcomment .tolerant "-1 § 2"
  rw [halone] at hexprs
  exact ⟨hcomment, ⟨es, es', haccepted, halone, hexprs⟩, hlexical, hgrammar⟩

end Protean
