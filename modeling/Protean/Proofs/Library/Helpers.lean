import Protean.Proofs.Library.Routines

/-!
# Proofs — Library — the helpers of lists

What `forEach`, `map` and `filter` do on a machine that has started up with the standard library, for every list
and every callback of the language.  If every call that is made succeeds and leaves alone what is not its own
(`Routine.Unfailing`), the helper makes exactly one call for each element, and yields what the results say
(`list_helpers_iterate`).

The theorem is stated with the calls that have been made, which `Routine.Calls` lists.  It is seen at work on a list
with a null in it and a function that tells nulls from other values (`Machine.Started.itIsNull_invokes`), whose calls
are known beforehand, so that `Routine.Orderly` gives all that is asked of them.

The last part are three programs that modify no binding of the library, and on which the helpers still go wrong: the
theorem asks for an *unobstructed* library, and for callbacks that leave a list its prototype, for a reason.
-/

namespace Protean

/-! ### A function that tells nulls from other values

A callback whose calls can be followed to the end, for the example below. -/

/-- `it == null` -/
def Code.itIsNull : List Code :=
  [.call none (Library.name "==") [Library.positional (Library.name "it"), Library.positional (Library.name "null")]]

/-- Whether the value is null, as a value. -/
def Labeled.nullness (v : Labeled) : Labeled := .bare (.boolean v.value.isNull)

/-- To be the same as null is to be null. -/
theorem Value.same_null (v : Value) : v.same .null = v.isNull := by cases v <;> rfl

/-- A value is read back as null exactly if it is null. -/
theorem Labeled.isNull_stored (v : Labeled) : v.stored.value.isNull = v.value.isNull := by
  by_cases hv : v.value = .null
  · rw [stored_of_null hv, hv]
    rfl
  · rw [stored_of_ne_null hv]

/-- A call binds its first argument to `it`, but for null. -/
theorem Heap.find?_scopeFields_it (S A : ObjectId) (entries : Entries) :
    (scopeFields S A entries).find? (.name "it") = (entries.positional 0).field? := by
  have hfree : Key.name "it" ∉ Fields.keys [(.name "this", .bare (.object S)), (.name "args", .bare (.object A))] := by
    simp [Fields.keys]
  rw [scopeFields, Fields.find?_write_ne (by decide)]
  exact Fields.find?_write_self hfree

namespace Machine

variable {m₀ q : Machine} {f caller : ObjectId} {v : Labeled} {k : Nat}

/-- In a call, `it` is what the first argument is read as: a null leaves `it` to the scope around, where it is not
bound. -/
theorem Started.reads_it (hm₀ : m₀.Started) {h : Heap} {S A : ObjectId} {entries : Entries} (hw : h.WellFormed)
    (hgrows : m₀.heap.Grows h) (hS : h.get S = ⟨.plain, Heap.scopeFields S A entries, some m₀.global⟩) :
    h.getField S (.name "it") = (entries.positional 0).stored := by
  have hfind := Heap.find?_scopeFields_it S A entries
  by_cases hnull : (entries.positional 0).value = .null
  · rw [Labeled.field?_of_null hnull] at hfind
    rw [hw.chained.getField_outer hS (by decide) hfind, Labeled.stored_of_null hnull]
    refine hw.getField_eq_null (by decide) ?_
    rw [hgrows.getField hm₀.sound.wellFormed hw hm₀.sound.global_lt]
    exact hm₀.it_free
  · rw [Labeled.field?_of_ne_null hnull] at hfind
    rw [hw.chained.getField_found hS (by decide) hfind, Labeled.stored_of_ne_null hnull]

/-- **The function `{ it == null }`** says whether its argument is null, and leaves the scope of the call only. -/
theorem Started.itIsNull_invokes (hm₀ : m₀.Started) (hq : q.Sound) (hgrows : m₀.heap.Grows q.heap)
    (hkind : (q.heap.get f).kind = .function ⟨[], [], Code.itIsNull⟩ m₀.global) (hcaller : caller < q.heap.size)
    (hv : v.Below q.heap.size) :
    ∃ q', q.Invokes (.bare (.object f)) (.callback caller v k) v.nullness q' ∧ q'.Sound ∧
      q.heap.Grows q'.heap := by
  have hglobal := hm₀.sound.global_lt.trans_le hgrows.size_le
  have hkeys := Entries.proto_not_mem_callback caller v k
  let p := q.inside m₀.global (.callback caller v k)
  -- the body runs in a scope whose names are those of the call and those of the machine
  have hp : p.Sound := hq.inside hglobal (Entries.callback_below hcaller hv k) hkeys
  have hgrows' : m₀.heap.Grows p.heap := hgrows.trans (.enter ..)
  have hscope := Heap.get_enter_scope q.heap m₀.global (.callback caller v k)
  have hread : ∀ key, p.heap.getField m₀.global key = m₀.heap.getField m₀.global key :=
    hgrows'.getField hm₀.sound.wellFormed hp.wellFormed hm₀.sound.global_lt
  have hit : p.heap.getField q.heap.size (.name "it") = v.stored := hm₀.reads_it hp.wellFormed hgrows' hscope
  -- `null` is bound nowhere, so it reads as null
  have hnull : p.heap.getField q.heap.size (.name "null") = .null := by
    rw [hp.wellFormed.chained.getField_outer hscope (by decide) (Heap.find?_scopeFields (by decide))]
    refine hp.wellFormed.getField_eq_null (by decide) ?_
    rw [hread]
    exact hm₀.stocked.null_free
  -- `==` is the builtin function it was at the start
  obtain ⟨e, he, hequal⟩ : p.heap.Provides q.heap.size "==" (.builtin .equal m₀.global) := by
    obtain ⟨e, he, hequal⟩ := hm₀.equal
    have hlt : e < m₀.heap.size := by
      have hbelow : (m₀.heap.getField m₀.global (.name "==")).Below m₀.heap.size :=
        hm₀.sound.wellFormed.getField_below
      rwa [he] at hbelow
    have houter : p.heap.Provides m₀.global "==" (.builtin .equal m₀.global) :=
      ⟨e, (hread _).trans he, (congrArg Object.kind (hgrows'.get_eq e hlt)).trans hequal⟩
    exact houter.inner hp.wellFormed.chained hscope (by decide) (Heap.find?_scopeFields (by decide))
  have hargs : p.entered.Materializes (.withSelf (.bare (.object q.heap.size))
      [Library.positional (Library.name "it"), Library.positional (Library.name "null")] q.heap.size)
      [(.name "self", .bare (.object q.heap.size)), (.index 0, v.stored), (.index 1, .null)] p.entered :=
    .withSelf (.positional (.reads hit) rfl (.positional (.reads hnull) rfl (.nil _)))
  -- the body is one call of it, with `it` and null
  have hanswer : p.Invokes (.bare (.object e)) _ (.bare (.boolean (v.stored.value.same .null))) p.entered.left :=
    .builtin rfl hequal rfl hargs rfl (.of_eq fun _ _ => rfl)
  rw [Value.same_null, Labeled.isNull_stored] at hanswer
  exact ⟨p.charged.left, .lambda rfl hkind rfl (callback_materializes ..) hkeys (.single (.call (.reads he) hanswer)),
    ⟨⟨hp.consistent, hp.global_lt⟩, .enter ..⟩⟩

end Machine

/-- There is a machine with the list of `true` and `null`, on which a helper is called with `{ it == null }`. -/
theorem Iteration.exists_call {m₀ : Machine} (hm₀ : m₀.Started) :
    ∃ (m m₁ : Machine) (j : Iteration) (args : CallArguments) (f : ObjectId),
      j.global = m₀.global ∧ j.listProto = Library.listProto ∧ m₀.heap.Grows m.heap ∧
        j.elements = [.bare (.boolean true), .null] ∧ j.Call m args m₁ ∧ j.callback = .bare (.object f) ∧
        (m.heap.get f).kind = .function ⟨[], [], Code.itIsNull⟩ m₀.global := by
  have hglobal := hm₀.sound.global_lt
  obtain ⟨b, hread, hkind⟩ := hm₀.stocked.globals ("list", .list) (by simp [Library.globals])
  let given : CallArguments := .withSelf (.bare (.object m₀.global))
    [⟨none, .const (.bare (.boolean true))⟩, ⟨none, .const .null⟩] m₀.global
  have hgiven : m₀.entered.Materializes given
      [(.name "self", .bare (.object m₀.global)), (.index 0, .bare (.boolean true)), (.index 1, .null)]
      m₀.entered :=
    .withSelf (.positional (.const _ _) rfl (.positional (.const _ _) rfl (.nil _)))
  -- `list(true, null)`
  let L := m₀.heap.size
  let p := (m₀.entered.withHeap
    (m₀.heap.alloc ⟨.plain, Fields.ofElements [.bare (.boolean true), .null], some Library.listProto⟩).2).left
  have hlist : m₀.Invokes (.bare (.object b)) given (.bare (.object L)) p :=
    .list rfl hkind hgiven rfl hm₀.stocked.prototype
  have hb : (m₀.heap.getField m₀.global (.name "list")).Below m₀.heap.size := hm₀.sound.wellFormed.getField_below
  rw [hread] at hb
  have hp : p.Sound := (hlist.sound hm₀.sound hb ⟨⟨hglobal, trivial, trivial, trivial⟩, hglobal⟩).1
  have hisList : p.heap.IsList Library.listProto L [.bare (.boolean true), .null] :=
    Heap.isList_ofElements m₀.heap Library.listProto [.bare (.boolean true), .null]
  have hgrows : m₀.heap.Grows p.heap := .alloc ..
  -- `{ it == null }`
  have hp' : m₀.global < p.heap.size := hglobal.trans_le hgrows.size_le
  let m := p.making Code.itIsNull m₀.global
  have hm : m.Sound := hp.making hp' (by simp [Code.itIsNull, Code.BodyBelow, Code.Below, Code.ArgsBelow])
  have hgrows' : m₀.heap.Grows m.heap := hgrows.trans (p.making_grows ..)
  have hmade := p.making_kind Code.itIsNull m₀.global
  have hf : p.heap.size < m.heap.size := Heap.lt_of_function hmade
  let j : Iteration := ⟨m₀.global, Library.listProto, m.heap.size, L, .bare (.object L), rfl,
    .bare (.object p.heap.size), [.bare (.boolean true), .null]⟩
  let args : CallArguments := .withSelf (.bare (.object L)) [⟨none, .const (.bare (.object p.heap.size))⟩] m₀.global
  have hargs : (m.opening m₀.global).Materializes args j.arguments (m.opening m₀.global) :=
    .withSelf (.positional (.const _ _) rfl (.nil _))
  have hopening := Heap.Grows.openScope m.heap m₀.global
  have hL : L < m.heap.size := hisList.lt.trans hf
  refine ⟨m, m.opening m₀.global, j, args, p.heap.size, rfl, rfl, hgrows', rfl, ?_, rfl, hmade⟩
  exact {
    sound := hm
    list := hisList.of_get hL ((p.making_grows ..).get_eq _ hisList.lt)
    scope := rfl
    below := ⟨⟨hL, hf, trivial⟩, hglobal.trans_le hgrows'.size_le⟩
    arguments := hargs
    grows := .refl _
    callback := ⟨_, _, _, rfl, (congrArg Object.kind (hopening.get_eq _ hf)).trans hmade⟩ }

/-! ### Every list and every callback

The theorem, and what it says of a list with a null in it. -/

/-- **The helpers of lists iterate.**  On a machine with an unmodified library, let a helper be called with a list
of fewer than 2^53 elements and a function of the language, whose calls all succeed and leave the list, the
helper's own objects and the library alone.  With budget enough, the helper calls the function exactly once for
each element, in order, with the element and its index; and it leaves the list as it was.

* `forEach` yields null.
* `map` yields a new list of the results, null results included.
* `filter` yields a new list of the elements for which the function has answered true, if all of its answers are
  booleans. -/
theorem list_helpers_iterate {m₀ m m₁ : Machine} {j : Iteration} {args : CallArguments} (hm₀ : m₀.Started)
    (hglobal : j.global = m₀.global) (hproto : j.listProto = Library.listProto) (hlib : m₀.Unobstructed m.heap)
    (hn : j.elements.length < 2 ^ 53) (hcall : j.Call m args m₁) :
    (∀ i, m.heap.getField j.list (.index i) = j.elements.getD i .null) ∧
    ((j.forEach m₁).Unfailing m₀ →
      ∃ rs p, (j.forEach m₁).Calls rs p ∧ rs.length = j.elements.length ∧
        let last := (j.forEach m₁).finish p
        m.Invokes (m.heap.getField j.list (.name "forEach")) args .null last ∧
          last.heap.get j.list = m.heap.get j.list) ∧
    ((j.map m₁).Unfailing m₀ →
      ∃ rs p, (j.map m₁).Calls rs p ∧ rs.length = j.elements.length ∧
        let last := (j.map m₁).finish p
        m.Invokes (m.heap.getField j.list (.name "map")) args (.bare (.object (j.collection m₁))) last ∧
          m.heap.size ≤ j.collection m₁ ∧
          last.heap.IsList j.listProto (j.collection m₁) (rs.map Labeled.stored) ∧
          last.heap.get j.list = m.heap.get j.list) ∧
    ((j.filter m₁).Unfailing m₀ → (j.filter m₁).Decides →
      ∃ rs p, (j.filter m₁).Calls rs p ∧ rs.length = j.elements.length ∧
        let last := (j.filter m₁).finish p
        m.Invokes (m.heap.getField j.list (.name "filter")) args (.bare (.object (j.collection m₁))) last ∧
          m.heap.size ≤ j.collection m₁ ∧
          last.heap.IsList j.listProto (j.collection m₁) (Iteration.selection j.elements rs) ∧
          last.heap.get j.list = m.heap.get j.list) := by
  have hs := Iteration.stocked_of_unobstructed hm₀ hglobal hproto hcall.sound hlib
  -- how elements are read does not depend on what the library calls, and `forEach` makes no list
  refine ⟨hcall.list.getField_index hcall.sound.wellFormed hs,
    Iteration.forEach_invokes hm₀ hglobal hproto hlib hn hcall, fun hf => ?_, fun hf hboolean => ?_⟩
  · have hhelper : ("map", Library.collectBody Library.mapRound) ∈ Library.helpers := by simp [Library.helpers]
    -- what `map` collects are the results, starting from none
    have hcollects := Iteration.map_collects hm₀ hglobal hproto hn hf
    obtain ⟨acc, p, ⟨rs, hrs, rfl, hcalls⟩, hyields⟩ :=
      hcollects.yields hcall hs hn hhelper Library.mapRound_below ⟨[], rfl, rfl, .start⟩
    exact ⟨rs, p, hcalls, hrs, hyields⟩
  · have hhelper : ("filter", Library.collectBody Library.filterRound) ∈ Library.helpers := by
      simp [Library.helpers]
    -- what `filter` collects are the elements that the results select
    have hcollects := Iteration.filter_collects hm₀ hglobal hproto hn hf hboolean
    obtain ⟨acc, p, ⟨rs, hrs, rfl, hcalls⟩, hyields⟩ :=
      hcollects.yields hcall hs hn hhelper Library.filterRound_below ⟨[], rfl, (Iteration.selection_nil _).symm, .start⟩
    exact ⟨rs, p, hcalls, hrs, hyields⟩

/-- The list of `true` and `null`, and the function `{ it == null }`: it yields `false` and `true`, so that `filter`
leaves the null. -/
theorem list_helpers_iterate_null : ∃ (m₀ m m₁ : Machine) (j : Iteration) (args : CallArguments) (f : ObjectId),
    m₀.Started ∧ m₀.Unobstructed m.heap ∧ j.Call m args m₁ ∧ j.elements = [.bare (.boolean true), .null] ∧
    j.callback = .bare (.object f) ∧ (m.heap.get f).kind = .function ⟨[], [], Code.itIsNull⟩ m₀.global ∧
    (∃ p, m.Invokes (m.heap.getField j.list (.name "forEach")) args .null p) ∧
    (∃ p R, m.Invokes (m.heap.getField j.list (.name "map")) args (.bare (.object R)) p ∧
      p.heap.IsList j.listProto R [.bare (.boolean false), .bare (.boolean true)]) ∧
    (∃ p R, m.Invokes (m.heap.getField j.list (.name "filter")) args (.bare (.object R)) p ∧
      p.heap.IsList j.listProto R [.null]) := by
  obtain ⟨-, -, m₀, -, -, -, hm₀⟩ := Machine.Started.exists_started
  obtain ⟨m, m₁, j, args, f, hglobal, hproto, hgrows, helements, hcall, hcallback, hkind⟩ := Iteration.exists_call hm₀
  -- the call is made on a machine that has only grown since it has started up
  have hlib : m₀.Unobstructed m.heap :=
    hm₀.unobstructed.grows hm₀ hm₀.sound.wellFormed hcall.sound.wellFormed hgrows
  have hs := Iteration.stocked_of_unobstructed hm₀ hglobal hproto hcall.sound hlib
  have hn : j.elements.length < 2 ^ 53 := by
    rw [helements]
    decide
  have hbelow : ∀ k, (j.elements.getD k .null).Below m.heap.size := fun k => by
    rw [Labeled.Below, ← hcall.list.getField_index hcall.sound.wellFormed hs k]
    exact hcall.sound.wellFormed.getField_below
  -- the callback answers alike on every machine that has grown from there, so its calls are known beforehand
  have hanswers : m.Answers j.callback j.elements Labeled.nullness := by
    intro q caller k hq hgrown hcaller _
    have hkind' : (q.heap.get f).kind = .function ⟨[], [], Code.itIsNull⟩ m₀.global := by
      rw [hgrown.get_eq f (Heap.lt_of_function hkind), hkind]
    rw [hcallback]
    exact hm₀.itIsNull_invokes hq (hgrows.trans hgrown) hkind' hcaller ((hbelow k).mono hgrown.size_le)
  have hanswer : ∀ v : Labeled, ∃ b, v.nullness.value = .boolean b := fun v => ⟨_, rfl⟩
  have hforEach : (j.forEach m₁).Orderly m Labeled.nullness _ := hcall.forEach_orderly hs
  have hmap : (j.map m₁).Orderly m Labeled.nullness _ := hcall.map_orderly hs hn
  have hfilter := hcall.filter_orderly hs hn hanswer
  -- the three helpers are called, and what the theorem asks for is known of their calls
  obtain ⟨-, hforEach', hmap', hfilter'⟩ := list_helpers_iterate hm₀ hglobal hproto hlib hn hcall
  obtain ⟨-, p₁, -, -, hinvokes₁, -⟩ := hforEach' (hforEach.unfailing hanswers hm₀ hcall.sound hlib)
  obtain ⟨rs₂, p₂, hcalls₂, hrs₂, hinvokes₂, -, hlist₂, -⟩ := hmap' (hmap.unfailing hanswers hm₀ hcall.sound hlib)
  obtain ⟨rs₃, p₃, hcalls₃, hrs₃, hinvokes₃, -, hlist₃, -⟩ :=
    hfilter' (hfilter.unfailing hanswers hm₀ hcall.sound hlib) (hfilter.decides hanswers hanswer)
  -- the calls are made in order and answered alike, so their results are the answers for the elements
  rw [hmap.results hanswers hcalls₂ hrs₂] at hlist₂
  rw [hfilter.results hanswers hcalls₃ hrs₃] at hlist₃
  refine ⟨m₀, m, m₁, j, args, f, hm₀, hlib, hcall, helements, hcallback, hkind, ⟨_, hinvokes₁⟩,
    ⟨_, _, hinvokes₂, ?_⟩, ⟨_, _, hinvokes₃, ?_⟩⟩
  · have hnullness : (j.elements.map Labeled.nullness).map Labeled.stored =
        [.bare (.boolean false), .bare (.boolean true)] := by
      rw [helements]
      rfl
    exact hnullness ▸ hlist₂
  · have hselected : Iteration.selection j.elements (j.elements.map Labeled.nullness) = [.null] := by
      rw [helements]
      rfl
    exact hselected ▸ hlist₃

/-! ### Programs that modify no binding of the library

Three programs, each of which leaves all bindings of the library as they are and still keeps a helper from
doing what it is for. -/

/-- Whether a program has yielded the text. -/
def Labeled.isText (text : String) : Except EvalError (Labeled × Machine) → Bool
  | .ok (⟨.string s, _⟩, _) => decide (s = text)
  | .ok _ | .error _ => false

/-- If the test passes, the program has yielded the text. -/
theorem Labeled.exists_of_isText {text : String} {r : Except EvalError (Labeled × Machine)}
    (h : isText text r = true) : ∃ v m, r = .ok (v, m) ∧ v.value = .string text := by
  unfold isText at h
  split at h
  · next s source m => exact ⟨⟨.string s, source⟩, m, rfl, congrArg Value.string (of_decide_eq_true h)⟩
  · cases h
  · cases h

/-- Whether a program has called what cannot be called. -/
def Failure.isNotCallable : Except EvalError (Labeled × Machine) → Bool
  | .error (.runtime ⟨.notCallable, _⟩) => true
  | .ok _ | .error _ => false

/-- If the test passes, the program has failed this way. -/
theorem Failure.exists_of_isNotCallable {r : Except EvalError (Labeled × Machine)} (h : isNotCallable r = true) :
    ∃ e, r = .error (.runtime e) ∧ e.failure = .notCallable := by
  unfold isNotCallable at h
  split at h
  · next trace => exact ⟨⟨.notCallable, trace⟩, rfl, rfl⟩
  · cases h
  · cases h

set_option maxRecDepth 20000 in
/-- **Unmodified bindings are not enough.**  None of these programs modifies a binding of the library or a field of
a list, and every callback succeeds.

* If `null` is bound, `forEach` yields what it is bound to.
* If lists inherit an element, a null is read as that element, and `filter` collects it in place of the null.
* If the callback takes away the prototype of the list, the next round has no `get` to call. -/
theorem list_helpers_need_more : ∃ modules i, Library.modules = .ok modules ∧ Interpreter.ofModules modules = .ok i ∧
    (∃ v m, i.evalText {} "null = \"x\"\nlist(true).forEach(\x7b it \x7d)" = .ok (v, m) ∧ v.value = .string "x") ∧
    (∃ v m, i.evalText {} "listProto.0 = \"x\"\nr = list(null).filter(\x7b true \x7d)\nlistProto.0 = null\nr.0" =
      .ok (v, m) ∧ v.value = .string "x") ∧
    (∃ e, i.evalText {} "l = list(true, true)\nl.forEach(\x7b l.proto = this \x7d)" = .error (.runtime e) ∧
      e.failure = .notCallable) := by
  obtain ⟨modules, i, m, hmodules, hi, hboot, hruns⟩ : ∃ modules i m, Library.modules = .ok modules ∧
      Interpreter.ofModules modules = .ok i ∧ i.bootstrap {} = (.ok (), m) ∧
      (Labeled.isText "x" (m.evalChars "null = \"x\"\nlist(true).forEach(\x7b it \x7d)".toList) &&
        (Labeled.isText "x" (m.evalChars
            "listProto.0 = \"x\"\nr = list(null).filter(\x7b true \x7d)\nlistProto.0 = null\nr.0".toList) &&
          Failure.isNotCallable
            (m.evalChars "l = list(true, true)\nl.forEach(\x7b l.proto = this \x7d)".toList))) = true :=
    Library.exists_started ⟨_, _, rfl, rfl, by decide +kernel⟩
  simp only [Bool.and_eq_true, ← Interpreter.evalText_eq hboot] at hruns
  obtain ⟨hnull, helement, hproto⟩ := hruns
  exact ⟨modules, i, hmodules, hi, Labeled.exists_of_isText hnull, Labeled.exists_of_isText helement,
    Failure.exists_of_isNotCallable hproto⟩

end Protean
