import Protean.Interpreter
import Protean.Proofs.Code.Same
import Protean.Proofs.Heap.Scope
import Protean.Proofs.Heap.Visible
import Protean.Proofs.Machine.Limits

/-!
# Proofs — Library — what the helpers of lists rely on

The helpers of lists are code like any other: they look up `while`, `+`, `self.length` and the like each time
they run.  `Heap.Stocked` says that all of these names still mean what the library has bound them to, that
`null` is not bound, and that lists inherit no elements.

A machine that has started up with the standard library is stocked, which is found out by computation:
`Heap.showsLibrary` is a Boolean, and a heap that passes is stocked (`Heap.stocked_of_showsLibrary`).  It stays stocked
as long as these names and indices are read as before (`Heap.Stocked.of_reads`), so in particular

* where only new objects are made (`Stocked.grows`),
* where a name is bound that is not reserved (`Stocked.define`), and
* where an element is written to a list (`Stocked.writeIndex`).

The code of the helpers is written down here once more (`Library.forEachBody`, `Library.collectBody`), as code; that it
is what their text is read as is part of the computation.
-/

namespace Protean

/-! ### The code of the helpers

The bodies of the helpers, as they stand in the source of the library.  That they are what the parser makes of
it is checked where the library starts up. -/

namespace Library

/-- A name in the code of the library. -/
abbrev name (x : String) : Code := .identifier none x

/-- A positional argument in the code of the library. -/
abbrev positional (code : Code) : Argument Code := ⟨none, code⟩

/-- A function in the code of the library. -/
abbrev block (body : List Code) : Code := .function none [] [] body

/-- A whole number in the code of the library. -/
abbrev whole (n : Nat) : Code := .literal none (.number (Number.ofIndex n))

/-- `i < self.length` -/
def condition : List Code :=
  [.call none (name "<") [positional (name "i"), positional (.field none (name "self") (.name "length"))]]

/-- `callback(self.get(i), i)` and `i = i + 1` -/
def round : List Code :=
  [.call none (name "callback")
      [positional (.send none (name "self") (.name "get") [positional (name "i")]), positional (name "i")],
    .bind none "i" (.call none (name "+") [positional (name "i"), positional (whole 1)])]

/-- The code of `forEach`, with its condition and its round for arguments of `while`. -/
def forEachBody : List Code :=
  [.store none (name "this") (.name "callback") (name "it"),
    .store none (name "this") (.name "i") (whole 0),
    .call none (name "while") [positional (block condition), positional (block round)],
    name "null"]

/-- `result.add(callback(args.0, args.1))` -/
def mapRound : List Code :=
  [.send none (name "result") (.name "add")
    [positional (.call none (name "callback")
      [positional (.field none (name "args") (.index 0)), positional (.field none (name "args") (.index 1))])]]

/-- `result.add(entry.0)` -/
def accept : List Code :=
  [.send none (name "result") (.name "add") [positional (.field none (name "entry") (.index 0))]]

/-- `this.entry = args` and `if(callback(entry.0, entry.1)) …` -/
def filterRound : List Code :=
  [.store none (name "this") (.name "entry") (name "args"),
    .call none (name "if")
      [positional (.call none (name "callback")
          [positional (.field none (name "entry") (.index 0)), positional (.field none (name "entry") (.index 1))]),
        positional (block accept)]]

/-- The code of a helper that collects a new list in rounds. -/
def collectBody (round : List Code) : List Code :=
  [.store none (name "this") (.name "callback") (name "it"),
    .store none (name "this") (.name "result") (.call none (name "list") []),
    .send none (name "self") (.name "forEach") [positional (block round)],
    name "result"]

/-- The builtin functions in the global scope that the helpers call. -/
def globals : List (String × Builtin) :=
  [("list", .list), ("while", .loop), ("if", .choose), ("<", .less), ("+", .add)]

/-- The builtin functions that they call on lists. -/
def methods : List (String × Builtin) := [("get", .get), ("add", .listAdd)]

/-- The helpers. -/
def helpers : List (String × List Code) :=
  [("forEach", forEachBody), ("map", collectBody mapRound), ("filter", collectBody filterRound)]

/-- The names that the helpers rely on. -/
def reserved : List String :=
  "proto" :: "listProto" :: "null" :: (globals.map Prod.fst ++ methods.map Prod.fst ++ helpers.map Prod.fst)

end Library

/-! ### A heap with the library on it

What the helpers rely on, as a property of heaps: the builtin functions they call and what they are read as. -/

namespace Heap

/-- The field is a function object of the given kind. -/
def Provides (h : Heap) (id : ObjectId) (name : String) (kind : ObjectKind) : Prop :=
  ∃ f, h.getField id (.name name) = .bare (.object f) ∧ (h.get f).kind = kind

/-- What the helpers of lists rely on is there. -/
structure Stocked (h : Heap) (global listProto : ObjectId) : Prop where
  prototype : h.getField global (.name "listProto") = .bare (.object listProto)
  link : h.getField listProto .proto = .bare (.object objectProto)
  globals : ∀ b ∈ Library.globals, h.Provides global b.1 (.builtin b.2 global)
  methods : ∀ b ∈ Library.methods, h.Provides listProto b.1 (.builtin b.2 global)
  helpers : ∀ f ∈ Library.helpers, ∃ decorators,
    h.Provides listProto f.1 (.function ⟨decorators, [], f.2⟩ global)
  null_free : (h.getField global (.name "null")).value = .null
  index_free : ∀ i, (h.getField listProto (.index i)).value = .null

/-- The reads that this depends on. -/
def Relied (global listProto id : ObjectId) (key : Key) : Prop :=
  (id = global ∧ ∃ name ∈ "listProto" :: "null" :: Library.globals.map Prod.fst, key = .name name) ∨
  (id = listProto ∧ (key = .proto ∨ (∃ i, key = .index i) ∨
    ∃ name ∈ Library.methods.map Prod.fst ++ Library.helpers.map Prod.fst, key = .name name))

section
variable {h h' : Heap} {global listProto id : ObjectId} {name : String} {kind : ObjectKind} {key : Key}

/-- Where nothing is read, it is null without a source. -/
theorem WellFormed.getField_eq_null (hw : h.WellFormed) (hkey : key ≠ .proto)
    (hnull : (h.getField id key).value = .null) : h.getField id key = .null :=
  hw.chained.getField_of_no_nearest hkey fun owner hn =>
    (hw.getField_ne_null_iff hkey).mpr ⟨owner, hn⟩ hnull

/-- A function that is read as before is provided as before. -/
theorem Provides.of_read (ho : h.Provides id name kind) (hw : h.WellFormed) (hext : h.Extends h')
    (hread : h'.getField id (.name name) = h.getField id (.name name)) : h'.Provides id name kind := by
  obtain ⟨f, hf, hkind⟩ := ho
  have hlt : f < h.size := by
    have hbelow : (h.getField id (.name name)).value.Below h.size := hw.getField_below
    rwa [hf] at hbelow
  exact ⟨f, hread.trans hf, (hext.kind_eq f hlt).trans hkind⟩

/-- What is offered further out is offered in a scope that does not bind the name. -/
theorem Provides.inner {outer : ObjectId} {fields : Fields} {k : ObjectKind} (ho : h.Provides outer name kind)
    (hc : h.Chained) (hget : h.get id = ⟨k, fields, some outer⟩) (hname : name ≠ "proto")
    (hfind : fields.find? (.name name) = none) : h.Provides id name kind := by
  obtain ⟨f, hf, hkind⟩ := ho
  exact ⟨f, (hc.getField_outer hget (fun he => hname (Key.name.inj he)) hfind).trans hf, hkind⟩

namespace Stocked

/-- **What is read as before is stocked as before.** -/
theorem of_reads (hs : h.Stocked global listProto) (hw : h.WellFormed) (hext : h.Extends h')
    (hread : ∀ id key, Relied global listProto id key → h'.getField id key = h.getField id key) :
    h'.Stocked global listProto where
  prototype := (hread _ _ (.inl ⟨rfl, _, List.mem_cons_self, rfl⟩)).trans hs.prototype
  link := (hread _ _ (.inr ⟨rfl, .inl rfl⟩)).trans hs.link
  globals b hb := (hs.globals b hb).of_read hw hext (hread _ _
    (.inl ⟨rfl, _, List.mem_cons_of_mem _ (List.mem_cons_of_mem _ (List.mem_map_of_mem hb)), rfl⟩))
  methods b hb := (hs.methods b hb).of_read hw hext (hread _ _
    (.inr ⟨rfl, .inr (.inr ⟨_, List.mem_append_left _ (List.mem_map_of_mem hb), rfl⟩)⟩))
  helpers f hf := by
    obtain ⟨decorators, ho⟩ := hs.helpers f hf
    exact ⟨decorators, ho.of_read hw hext (hread _ _
      (.inr ⟨rfl, .inr (.inr ⟨_, List.mem_append_right _ (List.mem_map_of_mem hf), rfl⟩)⟩))⟩
  null_free := by
    rw [hread _ _ (.inl ⟨rfl, "null", List.mem_cons_of_mem _ List.mem_cons_self, rfl⟩)]
    exact hs.null_free
  index_free i := by
    rw [hread _ _ (.inr ⟨rfl, .inr (.inl ⟨i, rfl⟩)⟩)]
    exact hs.index_free i

/-- What the helpers rely on can be read, but for `null` and the indices. -/
theorem relied_ne_null (hs : h.Stocked global listProto) (hr : Relied global listProto id key)
    (hnull : ¬ (id = global ∧ key = .name "null")) (hindex : ¬ (id = listProto ∧ ∃ i, key = .index i)) :
    (h.getField id key).value ≠ .null := by
  have hprovides : ∀ {id name kind}, h.Provides id name kind → (h.getField id (.name name)).value ≠ .null := by
    rintro id name kind ⟨f, hf, -⟩
    rw [hf]
    exact nofun
  rcases hr with ⟨rfl, name, hname, rfl⟩ | ⟨rfl, rfl | ⟨i, rfl⟩ | ⟨name, hname, rfl⟩⟩
  · rcases List.mem_cons.mp hname with rfl | hname
    · rw [hs.prototype]; exact nofun
    rcases List.mem_cons.mp hname with rfl | hname
    · exact absurd ⟨rfl, rfl⟩ hnull
    obtain ⟨b, hb, rfl⟩ := List.mem_map.mp hname
    exact hprovides (hs.globals b hb)
  · rw [hs.link]; exact nofun
  · exact absurd ⟨rfl, i, rfl⟩ hindex
  · rcases List.mem_append.mp hname with hname | hname
    · obtain ⟨b, hb, rfl⟩ := List.mem_map.mp hname
      exact hprovides (hs.methods b hb)
    · obtain ⟨f, hf, rfl⟩ := List.mem_map.mp hname
      obtain ⟨decorators, ho⟩ := hs.helpers f hf
      exact hprovides ho

/-! ### Staying stocked

Which changes keep the property: those to objects that are neither the global scope nor the prototype of
lists. -/

theorem global_lt (hs : h.Stocked global listProto) (hw : h.WellFormed) : global < h.size := by
  by_contra hlt
  have hget := get_of_size_le (Nat.le_of_not_lt hlt)
  have hnull : h.getField global (.name "listProto") = .null :=
    hw.chained.getField_root (by decide) (by rw [fields, hget]; exact List.not_mem_nil) (by rw [proto, hget])
  rw [hs.prototype] at hnull
  cases hnull

theorem listProto_lt (hs : h.Stocked global listProto) (hw : h.WellFormed) : listProto < h.size := by
  have hbelow : (h.getField global (.name "listProto")).value.Below h.size := hw.getField_below
  rwa [hs.prototype] at hbelow

/-- New objects change nothing that is relied on. -/
theorem grows (hs : h.Stocked global listProto) (hw : h.WellFormed) (hw' : h'.WellFormed) (hg : h.Grows h') :
    h'.Stocked global listProto :=
  hs.of_reads hw hg.toExtends fun id key hr => by
    rcases hr with ⟨rfl, -⟩ | ⟨rfl, -⟩
    · exact hg.getField hw hw' (hs.global_lt hw) key
    · exact hg.getField hw hw' (hs.listProto_lt hw) key

/-- Other names may be bound anywhere. -/
theorem define (hs : h.Stocked global listProto) (hw : h.WellFormed) (hname : name ∉ Library.reserved)
    (o : ObjectId) (v : Labeled) : (h.define o name v).Stocked global listProto := by
  have hmem : ∀ x, x ∈ "listProto" :: "null" :: Library.globals.map Prod.fst ∨
      x ∈ Library.methods.map Prod.fst ++ Library.helpers.map Prod.fst → x ≠ name := by
    rintro x hx rfl
    refine hname (List.mem_cons_of_mem _ ?_)
    simp only [List.mem_cons, List.mem_append] at hx ⊢
    tauto
  refine hs.of_reads hw (h.extends_writeOwn ..) fun id key hr => getField_writeOwn_frame (.inl ?_) v
  rcases hr with ⟨-, x, hx, rfl⟩ | ⟨-, rfl | ⟨i, rfl⟩ | ⟨x, hx, rfl⟩⟩
  · exact fun he => hmem x (.inl hx) (Key.name.inj he)
  · exact fun he => hname (Key.name.inj he ▸ List.mem_cons_self)
  · exact Key.noConfusion
  · exact fun he => hmem x (.inr hx) (Key.name.inj he)

/-- Elements may be written to any list. -/
theorem writeIndex (hs : h.Stocked global listProto) (hw : h.WellFormed) (hproto : h.proto id = some listProto)
    (i : Nat) (v : Labeled) : (h.writeOwn id (.index i) v).Stocked global listProto := by
  refine hs.of_reads hw (h.extends_writeOwn ..) fun o key hr => getField_writeOwn_frame ?_ v
  rcases hr with ⟨-, x, -, rfl⟩ | ⟨rfl, -⟩
  · exact .inl Key.noConfusion
  · exact .inr (hw.chained.not_mem_chain hproto)

end Stocked

end

/-! ### Computing it

The property can be decided, so it can be checked on a machine that has started up. -/

/-- Whether the field is a builtin function that was made in the scope. -/
def showsBuiltin (h : Heap) (id : ObjectId) (name : String) (which : Builtin) (home : ObjectId) : Bool :=
  match h.getField id (.name name) with
  | ⟨.object f, none⟩ =>
    match (h.get f).kind with
    | .builtin which' home' => decide (which' = which) && decide (home' = home)
    | _ => false
  | _ => false

/-- Whether the field is a function of the language with the body, that was made in the scope and declares no
parameters. -/
def showsFunction (h : Heap) (id : ObjectId) (name : String) (body : List Code) (home : ObjectId) : Bool :=
  match h.getField id (.name name) with
  | ⟨.object f, none⟩ =>
    match (h.get f).kind with
    | .function ⟨_, [], body'⟩ home' => Code.bodySame body' body && decide (home' = home)
    | _ => false
  | _ => false

/-- Whether the field is the object. -/
def showsObject (h : Heap) (id : ObjectId) (key : Key) (o : ObjectId) : Bool :=
  match h.getField id key with
  | ⟨.object f, none⟩ => decide (f = o)
  | _ => false

/-- Whether no object on the chain has indices. -/
def showsNoIndex (h : Heap) (id : ObjectId) : Bool :=
  (h.chain id).all fun o => (h.fields o).keys.all fun key =>
    match key with
    | .name _ => true
    | .index _ => false

/-- Whether the library is there. -/
def showsLibrary (h : Heap) (global listProto : ObjectId) : Bool :=
  h.showsObject global (.name "listProto") listProto &&
  h.showsObject listProto .proto objectProto &&
  (Library.globals.all fun b => h.showsBuiltin global b.1 b.2 global) &&
  (Library.methods.all fun b => h.showsBuiltin listProto b.1 b.2 global) &&
  (Library.helpers.all fun f => h.showsFunction listProto f.1 f.2 global) &&
  (h.getField global (.name "null")).value.isNull &&
  h.showsNoIndex listProto

section
variable {h : Heap} {global listProto id home o : ObjectId} {name : String} {key : Key}

theorem provides_of_showsBuiltin {which : Builtin} (hs : h.showsBuiltin id name which home = true) :
    h.Provides id name (.builtin which home) := by
  unfold showsBuiltin at hs
  split at hs
  · rename_i f hf
    split at hs
    · rename_i hkind
      simp only [Bool.and_eq_true, decide_eq_true_eq] at hs
      obtain ⟨rfl, rfl⟩ := hs
      exact ⟨f, hf, hkind⟩
    · cases hs
  · cases hs

/-- The test for a function of the library, with its code. -/
theorem provides_of_showsFunction {body : List Code} (hs : h.showsFunction id name body home = true) :
    ∃ decorators, h.Provides id name (.function ⟨decorators, [], body⟩ home) := by
  unfold showsFunction at hs
  split at hs
  · rename_i f hf
    split at hs
    · rename_i decorators body' home' hkind
      simp only [Bool.and_eq_true, decide_eq_true_eq] at hs
      obtain ⟨hbody, rfl⟩ := hs
      exact ⟨decorators, f, hf, by rw [hkind, Code.eq_of_bodySame hbody]⟩
    · cases hs
  · cases hs

/-- The test for a binding to a certain object. -/
theorem eq_of_showsObject (hs : h.showsObject id key o = true) : h.getField id key = .bare (.object o) := by
  unfold showsObject at hs
  split at hs
  · rename_i f hf
    rw [hf, of_decide_eq_true hs]
    rfl
  · cases hs

/-- The test for a chain without elements on it. -/
theorem null_of_showsNoIndex (hs : h.showsNoIndex id = true) (i : Nat) :
    (h.getField id (.index i)).value = .null := by
  have hlookup : h.lookup (.index i) (h.chain id) = none := by
    refine List.findSome?_eq_none_iff.mpr fun o ho => Fields.find?_eq_none.mpr fun hmem => ?_
    have hname := List.all_eq_true.mp (List.all_eq_true.mp hs o ho) _ hmem
    cases hname
  rw [getField, if_neg (by simp [Key.proto]), hlookup]
  rfl

/-- **The test for all of it.** -/
theorem stocked_of_showsLibrary (hs : h.showsLibrary global listProto = true) :
    h.Stocked global listProto := by
  simp only [showsLibrary, Bool.and_eq_true, List.all_eq_true] at hs
  obtain ⟨⟨⟨⟨⟨⟨hprototype, hlink⟩, hglobals⟩, hmethods⟩, hhelpers⟩, hnull⟩, hindex⟩ := hs
  exact {
    prototype := eq_of_showsObject hprototype
    link := eq_of_showsObject hlink
    globals := fun b hb => provides_of_showsBuiltin (hglobals b hb)
    methods := fun b hb => provides_of_showsBuiltin (hmethods b hb)
    helpers := fun f hf => provides_of_showsFunction (hhelpers f hf)
    null_free := Value.isNull_iff.mp hnull
    index_free := null_of_showsNoIndex hindex }

end

end Heap

end Protean
