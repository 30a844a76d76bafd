import Protean.Proofs.Token.Scan

/-!
# Proofs — Token — where lexical errors stand

The error about a string that is not closed spans from its opening quote to the end of the text, so it depends on an
offset that has been kept in a mode since.  `State.Faultless` is the invariant: the offsets in the modes and the
errors so far stand in the text, and no offset in a mode is ahead of the lexer.
-/

namespace Protean

namespace Lexer

variable {cs : List Char}

/-- What lies between two states of the lexer is a span of the text. -/
theorem Passes.sited {offset offset' : Nat} {rest rest' : List Char} (h : Passes 0 cs offset rest)
    (h' : Passes offset rest offset' rest') : (Span.mk offset offset').Sited (Text.IsPlace cs) :=
  ⟨h'.le, h.isPlace, (h.trans h').isPlace⟩

/-- An escape that is not known is reported where it stands. -/
theorem chunk_errors_sited (offset : Nat) (rest : List Char) (hplace : Passes 0 cs offset rest) :
    ∀ e ∈ (chunk offset rest).errors, e.span.Sited (Text.IsPlace cs) := by
  have hescape : ∀ (offset : Nat) (c : Char) (r : List Char),
      Passes offset ('\\' :: c :: r) (offset + 1 + c.utf8Size) r := fun offset c r =>
    ⟨['\\', c], rfl, Nat.add_assoc offset 1 c.utf8Size⟩
  fun_induction chunk offset rest with
  | case1 | case2 | case3 | case4 => exact List.forall_mem_nil _
  | case5 offset c r _ _ _ _ ih => exact ih (hplace.trans (hescape offset c r))
  | case6 offset c r _ _ _ ih =>
    exact List.forall_mem_cons.mpr ⟨hplace.sited (hescape offset c r), ih (hplace.trans (hescape offset c r))⟩
  | case7 offset c r _ _ _ _ _ ih => exact ih (hplace.trans (.append offset [c] r))

/-- Only an opening quote adds an offset to the modes. -/
theorem mem_nest {kind : TokenKind} {offset n : Nat} {modes : List Mode}
    (h : Mode.string n ∈ nest kind offset modes) : n = offset ∨ Mode.string n ∈ modes := by
  cases kind with
  | stringStart =>
    rcases List.mem_cons.mp h with heq | h
    · exact .inl (Mode.string.inj heq)
    · exact .inr h
  | interpolationStart | leftParen | leftBracket | leftBrace =>
    rcases List.mem_cons.mp h with heq | h
    · cases heq
    · exact .inr h
  | rightParen | rightBracket | rightBrace | stringEnd => exact .inr (List.mem_of_mem_tail h)
  | _ => exact .inr h

namespace State

/-- The state, the strings that are open and the errors found so far stand in `cs`. -/
structure Faultless (cs : List Char) (s : State) : Prop where
  place : Passes 0 cs s.offset s.rest
  modes : ∀ n, Mode.string n ∈ s.modes → Text.IsPlace cs n ∧ n ≤ s.offset
  errors : ∀ e ∈ s.errors, e.span.Sited (Text.IsPlace cs)

namespace Faultless

variable {s s' : State}

/-- Passing over characters. -/
theorem move (h : s.Faultless cs) (hpasses : Passes s.offset s.rest s'.offset s'.rest)
    (hmodes : s'.modes ⊆ s.modes) (herrors : s'.errors = s.errors) : s'.Faultless cs where
  place := h.place.trans hpasses
  modes n hn := by
    obtain ⟨hplace, hle⟩ := h.modes n (hmodes hn)
    exact ⟨hplace, hle.trans hpasses.le⟩
  errors := herrors ▸ h.errors

/-- One more error with a span of the text. -/
theorem report (h : s.Faultless cs) {span : Span} (hspan : span.Sited (Text.IsPlace cs)) (cause : LexicalCause) :
    (s.report cause span).Faultless cs :=
  ⟨h.place, h.modes, List.forall_mem_cons.mpr ⟨hspan, h.errors⟩⟩

/-- A token may open a delimiter where the lexer stands. -/
theorem pass {kind : TokenKind} {taken rest : List Char} (h : s.Faultless cs) (hrest : s.rest = taken ++ rest) :
    (s.pass kind taken rest).Faultless cs where
  place := h.place.trans (hrest ▸ .append s.offset taken rest)
  modes n hn := by
    have hle : s.offset ≤ (s.pass kind taken rest).offset := Nat.le_add_right _ _
    rcases mem_nest hn with rfl | hn
    · exact ⟨h.place.isPlace, hle⟩
    · obtain ⟨hplace, hle'⟩ := h.modes n hn
      exact ⟨hplace, hle'.trans hle⟩
  errors := h.errors

/-- The content of a string may report its escapes. -/
theorem content (h : s.Faultless cs) : s.content.Faultless cs where
  place := h.place.trans s.content_passes
  modes n hn := by
    obtain ⟨hplace, hle⟩ := h.modes n hn
    exact ⟨hplace, hle.trans s.content_passes.le⟩
  errors e he := by
    rcases List.mem_append.mp he with he | he
    · exact chunk_errors_sited s.offset s.rest h.place e (List.mem_reverse.mp he)
    · exact h.errors e he

/-- **One step.** -/
theorem step (h : s.Faultless cs) (hs : s.step = some s') : s'.Faultless cs := by
  have hgap : s.skipGap.Faultless cs := h.move s.skipGap_passes (List.Subset.refl _) rfl
  have hdrop {c : Char} {r : List Char} (hrest : s.skipGap.rest = c :: r) :
      Passes s.skipGap.offset s.skipGap.rest (s.skipGap.offset + c.utf8Size) r :=
    hrest ▸ .append s.skipGap.offset [c] r
  cases round_of_step hs with
  | quote _ hrest | interpolation _ hrest => exact h.content.pass hrest
  | @unterminated openedAt hmode _ =>
    obtain ⟨outer, houter⟩ := modes_of_string hmode
    have hopened : Mode.string openedAt ∈ s.content.modes := houter ▸ List.mem_cons_self
    obtain ⟨hplace, hle⟩ := h.content.modes openedAt hopened
    have hspan : (Span.mk openedAt s.content.offset).Sited (Text.IsPlace cs) :=
      ⟨hle, hplace, h.content.place.isPlace⟩
    exact (h.content.report hspan .unterminatedString).move (.refl _ _) (List.tail_sublist _).subset rfl
  | token _ hrest hlexeme => exact hgap.pass (hrest.trans (lexeme_token hlexeme).1.symm)
  | skipped _ hrest _ => exact hgap.move (hdrop hrest) (List.Subset.refl _) rfl
  | stray _ hrest _ =>
    have hmoved : (s.skipGap.drop _ _).Faultless cs := hgap.move (hdrop hrest) (List.Subset.refl _) rfl
    exact hmoved.report (hgap.place.sited (hdrop hrest)) _

end Faultless

end State

end Lexer

/-- **All lexical errors stand in the text**, between characters of it. -/
theorem Token.ofText_faultless (text : String) :
    ∀ e ∈ (Token.ofText text).errors, e.span.Sited (Text.IsPlace text.toList) := by
  obtain ⟨t, hreaches, hend⟩ := Lexer.State.exists_reaches (.start text.toList)
  have hstart : (Lexer.State.start text.toList).Faultless text.toList :=
    ⟨.refl _ _, nofun, List.forall_mem_nil _⟩
  have ht := hreaches.invariant (fun _ _ hs hstep => hs.step hstep) hstart
  have hgap : t.skipGap.Faultless text.toList := ht.move t.skipGap_passes (List.Subset.refl _) rfl
  rw [Token.ofText_of_reaches hreaches hend]
  intro e he
  rw [List.mem_reverse, Lexer.State.finish] at he
  split at he
  · rcases List.mem_cons.mp he with rfl | he
    · exact .empty hgap.place.isPlace
    · exact hgap.errors e he
  · exact hgap.errors e he

end Protean
