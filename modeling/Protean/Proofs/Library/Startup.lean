import Protean.Proofs.Library.Stock
import Protean.Proofs.Machine.Budget

/-!
# Proofs — Library — starting up

What the standard library has put on the heap when a machine has started up, found out by computation.  The
library is partly written in the language, so to start up means to read two texts.  To have the characters of
a text as a list, it is enough to name the list: a text is what its characters are put together to
(`Library.exists_started`).

The default limits are enough to start up, and with any limits that are, the machine is the same
(`Interpreter.bootstrap_unique`).  So **every machine that has started up with the standard library is stocked**
(`Machine.Started.stocked`).

* `Library.exists_started`: whatever a Boolean says of the machine that has started up can be computed.
* `Library.exists_started_stocked`: what is computed here, once for all.
* `Machine.Started`: having started up, under whatever limits; `Machine.Started.unique` says that this is one machine.
* `Interpreter.evalText_eq`: evaluating a text is running what its characters are read as on this machine.
-/

namespace Protean

/-! ### Reading characters

The source of a module as a list of characters, so that lexing and parsing it can be evaluated. -/

/-- Reading characters as a program. -/
def Expr.parseChars (policy : Parser.Policy) (cs : List Char) : Parsed :=
  let lexed := Lexer.State.run (2 * cs.length + 2) (.start cs)
  let tokens := lexed.tokens.reverse
  let errors := lexed.errors.reverse
  match Parser.program policy (tokens.length + 2) (.start tokens) with
  | .done exprs s =>
    let sound := errors.isEmpty && s.errors.reverse.isEmpty
    ⟨if policy = .tolerant || sound then some exprs else none, errors, s.errors.reverse⟩
  | .failed e s => ⟨none, errors, (s.note e).errors.reverse⟩
  | .starved => ⟨none, errors, []⟩

theorem Expr.parse_ofList (policy : Parser.Policy) (cs : List Char) :
    Expr.parse policy (String.ofList cs) = Expr.parseChars policy cs := by
  rw [Expr.parse, Token.ofText, String.toList_ofList]
  rfl

/-- Adds expressions that have been read. -/
def Module.withParsed (m : Module) (p : Parsed) : Except ModuleError Module :=
  match p.result with
  | .ok exprs => .ok { m with exprs := m.exprs ++ exprs.map Expr.freeze }
  | .error ds => .error (.source m.name ("; ".intercalate (ds.map Diagnostic.render)))

/-- Adding a source is reading it and adding what has been read. -/
theorem Module.withSource_eq (m : Module) (text : String) :
    m.withSource text = m.withParsed (Expr.parse .strict text) := rfl

/-- Reads characters strictly and runs them on a machine that has started up. -/
def Machine.evalChars (m : Machine) (cs : List Char) : Except EvalError (Labeled × Machine) :=
  match (Expr.parseChars .strict cs).result with
  | .error ds => .error (.diagnostics ds)
  | .ok exprs =>
    match m.run {} (Expr.lowerAll { retain := true } exprs) with
    | (.ok v, m) => .ok (v, m)
    | (.error (.error e), _) => .error (.runtime e)
    | (.error _, m) => .ok (.null, m)

/-- What a text evaluates to depends on the machine and the characters. -/
theorem Interpreter.evalText_eq {i : Interpreter} {m : Machine} (hboot : i.bootstrap {} = (.ok (), m))
    (text : String) : i.evalText {} text = m.evalChars text.toList := by
  have hparse : Expr.parseChars .strict text.toList = Expr.parse .strict text := by
    rw [← Expr.parse_ofList, String.ofList_toList]
  have hrun : i.run {} = m.run {} := funext fun codes => by rw [Interpreter.run, hboot]
  delta Interpreter.evalText Machine.evalChars
  rw [hparse]
  exact hrun ▸ rfl

/-! ### The standard modules

What starting up with the modules of the library comes to, computed once. -/

namespace Library

/-- The standard modules with what has been read from their texts. -/
def modulesFrom (keys list : Parsed) : Except ModuleError (List Module) := do
  let objects ← Module.withParsed
    { name := "objects"
      runtimeDependencies := ["lists"]
      exprs :=
        [define "object" (builtin .object),
          defineOn "objectProto" "forEach" (builtin .forEach),
          defineOn "objectProto" "get" (builtin .get),
          defineOn "objectProto" "set" (builtin .set),
          defineOn "objectProto" "has" (builtin .has)] }
    keys
  let lists ← Module.withParsed
    { name := "lists"
      dependencies := ["objects", "control"]
      runtimeDependencies := ["operators"]
      exprs :=
        [define "listProto" (callOf (.identifier .nowhere "object")),
          define "list" (builtin .list),
          defineOn "listProto" "add" (builtin .listAdd)] }
    list
  return [objects, booleans, numbers, strings, control, operators, lists]

/-- The standard modules are made from what is read from the two texts. -/
theorem modules_eq : modules = modulesFrom (Expr.parse .strict keysText) (Expr.parse .strict listText) := by
  delta modules modulesFrom objects lists
  rw [Module.withSource_eq, Module.withSource_eq]

/-- The machine that has started up with the standard modules, whose texts are given by their characters. -/
def started (keys list : List Char) : Option Machine :=
  match modulesFrom (Expr.parseChars .strict keys) (Expr.parseChars .strict list) with
  | .ok modules =>
    match Interpreter.ofModules modules with
    | .ok i =>
      match i.bootstrap {} with
      | (.ok (), m) => some m
      | (.error _, _) => none
    | .error _ => none
  | .error _ => none

/-- **What holds of the machine that has started up** can be computed from the characters. -/
theorem exists_started {check : Machine → Bool} (h : ∃ keys list, keysText = String.ofList keys ∧
    listText = String.ofList list ∧ (started keys list).any check = true) :
    ∃ ms i m, modules = .ok ms ∧ Interpreter.ofModules ms = .ok i ∧ i.bootstrap {} = (.ok (), m) ∧
      check m = true := by
  obtain ⟨keys, list, hkeys, hlist, h⟩ := h
  have hmodules : modules = modulesFrom (Expr.parseChars .strict keys) (Expr.parseChars .strict list) := by
    rw [modules_eq, hkeys, hlist, Expr.parse_ofList, Expr.parse_ofList]
  rw [started, ← hmodules] at h
  split at h
  · rename_i ms hms
    split at h
    · rename_i i hi
      split at h
      · rename_i m hboot
        exact ⟨ms, i, m, hms, hi, hboot, h⟩
      · cases h
    · cases h
  · cases h

/-- The place of the prototype of lists on the heap of a machine that has started up. -/
def listProto : ObjectId := 43

set_option maxRecDepth 20000 in
/-- The machine that has started up has the library on its heap.  In its global scope there is `==`, and `it` is
not bound. -/
theorem exists_started_stocked : ∃ ms i m, modules = .ok ms ∧ Interpreter.ofModules ms = .ok i ∧
    i.bootstrap {} = (.ok (), m) ∧ (m.heap.showsLibrary m.global listProto &&
      (m.heap.showsBuiltin m.global "==" .equal m.global &&
        (m.heap.getField m.global (.name "it")).value.isNull)) = true :=
  exists_started ⟨_, _, rfl, rfl, by decide +kernel⟩

end Library

/-! ### Every machine that has started up

What is known of such machines without going back to how they came about. -/

namespace Interpreter

/-- With limits that are enough to start up, the machine is always the same. -/
theorem bootstrap_unique {i : Interpreter} {limits limits' : Limits} {m m' : Machine}
    (h : i.bootstrap limits = (.ok (), m)) (h' : i.bootstrap limits' = (.ok (), m')) : m = m' := by
  have hraised : ∀ {l : Limits} {k : Machine}, i.bootstrap l = (.ok (), k) → l.Le (limits.max limits') →
      i.bootstrap (limits.max limits') = (.ok (), k) := fun hk hle => by
    rw [i.bootstrap_raised hle fun e he => ?_, hk]
    rw [hk] at he
    cases he
  have heq := (hraised h (Limits.le_max_left _ _)).symm.trans (hraised h' (Limits.le_max_right _ _))
  cases heq
  rfl

end Interpreter

/-- The machine has started up with the standard library, under whatever limits. -/
def Machine.Started (m : Machine) : Prop :=
  ∃ modules i limits, Library.modules = .ok modules ∧ Interpreter.ofModules modules = .ok i ∧
    i.bootstrap limits = (.ok (), m)

namespace Machine.Started

variable {m m' : Machine}

/-- There is only one such machine. -/
theorem unique (hm : m.Started) (hm' : m'.Started) : m = m' := by
  obtain ⟨modules, i, limits, hmodules, hi, hboot⟩ := hm
  obtain ⟨modules', i', limits', hmodules', hi', hboot'⟩ := hm'
  obtain rfl : modules = modules' := Except.ok.inj (hmodules.symm.trans hmodules')
  obtain rfl : i = i' := Except.ok.inj (hi.symm.trans hi')
  exact Interpreter.bootstrap_unique hboot hboot'

/-- A machine that has started up is sound. -/
theorem sound (hm : m.Started) : m.Sound := by
  obtain ⟨modules, i, limits, -, hi, hboot⟩ := hm
  have hs := (Interpreter.bootstrap_sound hi limits).1
  rwa [hboot] at hs

/-- **A machine that has started up with the standard library is stocked.** -/
theorem stocked (hm : m.Started) : m.heap.Stocked m.global Library.listProto := by
  obtain ⟨modules, i, m', hmodules, hi, hboot, hshows⟩ := Library.exists_started_stocked
  rw [hm.unique ⟨modules, i, {}, hmodules, hi, hboot⟩]
  exact Heap.stocked_of_showsLibrary (Bool.and_eq_true_iff.mp hshows).1

/-- Programs find `==` in the global scope, too. -/
theorem equal (hm : m.Started) : m.heap.Provides m.global "==" (.builtin .equal m.global) := by
  obtain ⟨modules, i, m', hmodules, hi, hboot, hshows⟩ := Library.exists_started_stocked
  rw [hm.unique ⟨modules, i, {}, hmodules, hi, hboot⟩]
  exact Heap.provides_of_showsBuiltin (Bool.and_eq_true_iff.mp (Bool.and_eq_true_iff.mp hshows).2).1

/-- Outside of calls `it` is not bound. -/
theorem it_free (hm : m.Started) : (m.heap.getField m.global (.name "it")).value = .null := by
  obtain ⟨modules, i, m', hmodules, hi, hboot, hshows⟩ := Library.exists_started_stocked
  rw [hm.unique ⟨modules, i, {}, hmodules, hi, hboot⟩]
  exact Value.isNull_iff.mp (Bool.and_eq_true_iff.mp (Bool.and_eq_true_iff.mp hshows).2).2

/-- There is such a machine, the one that starts up under the default limits. -/
theorem exists_started : ∃ ms i m, Library.modules = .ok ms ∧ Interpreter.ofModules ms = .ok i ∧
    i.bootstrap {} = (.ok (), m) ∧ m.Started := by
  obtain ⟨ms, i, m, hms, hi, hboot, -⟩ := Library.exists_started_stocked
  exact ⟨ms, i, m, hms, hi, hboot, ms, i, {}, hms, hi, hboot⟩

end Machine.Started

end Protean
