import ScriptLang.Proofs.BoundChains
import ScriptLang.Proofs.ScopeGrowth

/-! A unit finds what earlier units declare in a single scope, in which newer declarations have taken
the places of older ones. There every name means what it would mean if each of these units still had
a scope of its own inside the scope of the unit before it. -/

namespace ScriptLang

namespace Declarations

def symbols (d : Declarations) : List Symbol := d.fns.map .fn ++ d.vars.map .var

def symbol? (d : Declarations) (name : String) : Option Symbol :=
  d.symbols.find? fun symbol => symbol.name = name

namespace From

variable {d : Declarations} {x : Scope} {name : String} {symbol : Symbol}

theorem mem_symbols_iff (origin : d.From x) : symbol ∈ d.symbols ↔ symbol ∈ x.symbols := by
  rw [symbols, List.mem_append, List.mem_map, List.mem_map, origin.fns, origin.vars]
  cases symbol <;> simp [Scope.mem_vars, Scope.mem_fns]

/-- In the scope that the declarations come from, a name means a symbol if this is declared and
called so. -/
theorem lookupLocal?_eq_some_iff (origin : d.From x) :
    x.lookupLocal? name = some symbol ↔ symbol ∈ d.symbols ∧ symbol.name = name := by
  rw [origin.mem_symbols_iff]
  constructor
  · intro found
    exact ⟨OrderedMap.mem_values_of_get? found, origin.named.name_eq found⟩
  · rintro ⟨member, rfl⟩
    exact origin.named.lookupLocal? member

/-- No name is declared for two symbols, so there is only one to be found. -/
theorem symbol?_eq (origin : d.From x) (name : String) : d.symbol? name = x.lookupLocal? name := by
  cases found : d.symbol? name with
  | none =>
    have others := List.find?_eq_none.1 found
    cases known : x.lookupLocal? name with
    | none => rfl
    | some symbol =>
      obtain ⟨member, called⟩ := origin.lookupLocal?_eq_some_iff.1 known
      exact absurd called (by simpa using others symbol member)
  | some symbol =>
    have called : symbol.name = name := by simpa using List.find?_some found
    exact (origin.lookupLocal?_eq_some_iff.2 ⟨List.mem_of_find?_eq_some found, called⟩).symm

end From

end Declarations

namespace Binding

/-- What units have declared that were bound in a row, each in its own mode, the newest first. -/
inductive IsHistory : List Declarations → Prop
  | nil : IsHistory []
  | cons {history : List Declarations} (older : IsHistory history) (scriptMode : Bool)
      (file : Option String) (u : Source.Unit) (next : Nat) :
      IsHistory ((bindUnit scriptMode file history u next).1.declarations :: history)

/-- Each unit of a history has left what is in a scope. -/
theorem IsHistory.origin {history : List Declarations} (bound : IsHistory history) :
    ∀ d ∈ history, ∃ x, d.From x := by
  induction bound with
  | nil => exact List.forall_mem_nil _
  | cons _ scriptMode file u next ih => exact List.forall_mem_cons.2 ⟨⟨_, bindUnit_from⟩, ih⟩

theorem historyScope_cons (root : Scope) (d : Declarations) (history : List Declarations) :
    historyScope root (d :: history) = addDeclarations (historyScope root history) d := by
  simp [historyScope]

/-- A name means what the newest unit that declares it has declared, or else what it meant before
all units. -/
theorem lookup?_historyScope {history : List Declarations} (origin : ∀ d ∈ history, ∃ x, d.From x)
    (root : Scope) (name : String) :
    (historyScope root history).lookup? name =
      (history.findSome? (·.symbol? name)).or (root.lookup? name) := by
  induction history with
  | nil => exact Scope.lookup?_push root name
  | cons d history ih =>
    obtain ⟨⟨x, newest⟩, older⟩ := List.forall_mem_cons.1 origin
    rw [historyScope_cons, lookup?_addDeclarations_from newest, ih older, List.findSome?_cons,
      newest.symbol?_eq]
    cases x.lookupLocal? name <;> rfl

end Binding

namespace Scope

/-- Declares symbols in a row, each of them if its name is still free. -/
def declareEach (scope : Scope) (symbols : List Symbol) : Scope :=
  symbols.foldl (fun s symbol => (s.declare? symbol.name symbol).getD s) scope

theorem lookupLocal?_declare (scope : Scope) (symbol : Symbol) (name : String) :
    ((scope.declare? symbol.name symbol).getD scope).lookupLocal? name =
      (scope.lookupLocal? name).or (if symbol.name = name then some symbol else none) := by
  unfold declare?
  rw [OrderedMap.contains_eq_isSome]
  cases known : scope.inner.get? symbol.name with
  | some old =>
    show scope.lookupLocal? name = _
    split
    next same =>
      have taken : scope.lookupLocal? name = some old := same ▸ known
      rw [taken, Option.some_or]
    next => rw [Option.or_none]
  | none =>
    show (scope.replace symbol.name symbol).lookupLocal? name = _
    rw [lookupLocal?_replace]
    split
    next same =>
      have free : scope.lookupLocal? name = none := same ▸ known
      rw [free, Option.none_or, if_pos same.symm]
    next other => rw [if_neg (Ne.symm other), Option.or_none]

theorem outer_declare (scope : Scope) (name : String) (symbol : Symbol) :
    ((scope.declare? name symbol).getD scope).outer = scope.outer := by
  unfold declare?
  cases scope.inner.contains name <;> rfl

/-- Of the symbols with a name, the first one gets it, if it is free. -/
theorem lookupLocal?_declareEach (symbols : List Symbol) (scope : Scope) (name : String) :
    (scope.declareEach symbols).lookupLocal? name =
      (scope.lookupLocal? name).or (symbols.find? fun symbol => symbol.name = name) := by
  induction symbols generalizing scope with
  | nil => exact Option.or_none.symm
  | cons symbol symbols ih =>
    refine (ih _).trans ?_
    rw [lookupLocal?_declare, List.find?_cons, Option.or_assoc]
    by_cases called : symbol.name = name <;> simp [called]

theorem outer_declareEach (symbols : List Symbol) (scope : Scope) :
    (scope.declareEach symbols).outer = scope.outer := by
  induction symbols generalizing scope with
  | nil => rfl
  | cons symbol symbols ih => exact (ih _).trans (outer_declare scope symbol.name symbol)

end Scope

namespace Binding

/-- A scope for each earlier unit, inside the scope of the unit before it; `history` has the newest
first. -/
def nestedScope (root : Scope) : List Declarations → Scope
  | [] => root
  | d :: older => (nestedScope root older).push.declareEach d.symbols

theorem lookup?_nestedScope (history : List Declarations) (root : Scope) (name : String) :
    (nestedScope root history).lookup? name =
      (history.findSome? (·.symbol? name)).or (root.lookup? name) := by
  induction history with
  | nil => rfl
  | cons d older ih =>
    have own : (nestedScope root older).push.lookupLocal? name = none := rfl
    have around : (nestedScope root older).push.outer.findSome? (·.get? name) =
        (nestedScope root older).lookup? name := rfl
    have declared : d.symbols.find? (fun symbol => symbol.name = name) = d.symbol? name := rfl
    rw [nestedScope, Scope.lookup?_eq, Scope.lookupLocal?_declareEach, Scope.outer_declareEach, own,
      around, ih, declared, List.findSome?_cons]
    cases d.symbol? name <;> rfl

def builtinFns (next : Nat) : List Fn := (Builtin.all.mapM Builtin.createFn next).1

theorem builtinFns_names (next : Nat) : (builtinFns next).map Fn.name = ["print", "input", "rnd"] := rfl

/-- In the outermost scope, a name means the builtin that is called so, if there is one. -/
theorem lookup?_rootScope_builtin (next : Nat) (name : String) :
    (rootScope next).1.lookup? name =
      ((builtinFns next).find? fun f => f.name = name).map .fn := by
  have isFold : (rootScope next).1 =
      (builtinFns next).foldl (fun s f => s.replace f.name (.fn f)) .root := rfl
  rw [isFold]
  cases found : (builtinFns next).find? fun f => f.name = name with
  | none =>
    have others := List.find?_eq_none.1 found
    exact lookup?_foldl_replace fun f member => by simpa using others f member
  | some f =>
    obtain rfl : f.name = name := by simpa using List.find?_some found
    have nodup : ((builtinFns next).map Fn.name).Nodup := by
      rw [builtinFns_names]
      decide
    refine lookup?_foldl_replace_mem (List.mem_of_find?_eq_some found) fun g member same => ?_
    exact congrArg Symbol.fn
      (List.inj_on_of_nodup_map nodup member (List.mem_of_find?_eq_some found) same)

/-- Behind units that were bound in a row, each of which may declare names anew as functions or as
variables, a name means in a new scope what the newest unit that declares it has declared, of which
there is only one, or else the builtin that is called so, or else nothing. It means the same where
every unit has a scope of its own. -/
theorem historyScope_resolves {history : List Declarations} (bound : IsHistory history) (next : Nat)
    (name : String) :
    (historyScope (rootScope next).1 history).push.lookup? name =
        (history.findSome? (·.symbol? name)).or
          (((builtinFns next).find? fun f => f.name = name).map .fn) ∧
      (∀ d ∈ history, ∀ symbol,
        d.symbol? name = some symbol ↔ symbol ∈ d.symbols ∧ symbol.name = name) ∧
      (historyScope (rootScope next).1 history).push.lookup? name =
        (nestedScope (rootScope next).1 history).push.lookup? name := by
  have flattened := lookup?_historyScope bound.origin (rootScope next).1 name
  refine ⟨?_, fun d member symbol => ?_, ?_⟩
  · rw [Scope.lookup?_push, flattened, lookup?_rootScope_builtin]
  · obtain ⟨x, origin⟩ := bound.origin d member
    rw [origin.symbol?_eq]
    exact origin.lookupLocal?_eq_some_iff
  · rw [Scope.lookup?_push, Scope.lookup?_push, flattened, lookup?_nestedScope]

end Binding

namespace Compilation

theorem compileAll_isHistory (options : Options) (us : List Source.Unit)
    {history : List Declarations} (older : Binding.IsHistory history) (earlier : List Bodies)
    (next : Nat) :
    ∀ c ∈ (compileAll options history earlier us next).1,
      Binding.IsHistory (c.declarations :: c.history) := by
  refine forall_mem_compileAll us (I := fun history _ _ => Binding.IsHistory history)
    (E := fun _ => True) (fun {history earlier next} u older _ => ?_) older fun _ _ => trivial
  have unit := older.cons options.scriptMode options.file u next
  rw [compileAfter_eq]
  exact ⟨unit, unit⟩

/-- What the units of a chain declare is a history, whatever mistakes are in them. -/
theorem chain_isHistory (options : Options) (us : List Source.Unit) (next : Nat) :
    ∀ c ∈ (chain options us next).1, Binding.IsHistory (c.declarations :: c.history) := by
  rw [chain_eq_compileAll]
  exact compileAll_isHistory options us .nil [] next

end Compilation

namespace Redeclared

open Source

def first : Source.Unit := (Sketch.Unit.place ⟨none, [
  .function ⟨"f", [], none, []⟩,
  .statement (.declare .varKeyword "x" none (.literal (.int 1)))]⟩ .start).1

def second : Source.Unit := (Sketch.Unit.place ⟨none, [
  .statement (.declare .varKeyword "f" none (.literal (.int 2))),
  .function ⟨"x", [], none, []⟩,
  .statement (.declare .letKeyword "rnd" none (.literal (.int 4)))]⟩ .start).1

def third : Source.Unit := (Sketch.Unit.place ⟨none, [
  .function ⟨"f", [], none, []⟩,
  .statement (.declare .varKeyword "f" none (.literal (.int 3)))]⟩ .start).1

def history : List Declarations :=
  ((Compilation.chain .script [first, second, third] 0).1.getLast?.map fun c =>
    c.declarations :: c.history).getD []

def meaning (name : String) : Option Symbol :=
  (Binding.historyScope (Binding.rootScope 100).1 history).push.lookup? name

theorem isHistory : Binding.IsHistory history := by
  unfold history
  cases last : (Compilation.chain .script [first, second, third] 0).1.getLast? with
  | none => exact .nil
  | some c => exact Compilation.chain_isHistory _ _ _ c (List.mem_of_getLast? last)

end Redeclared

/-- `f` means the function of the third unit again, `x` the function of the second one, and `rnd` its
variable. The builtin `print` is still in place. -/
theorem redeclared_resolves :
    Binding.IsHistory Redeclared.history ∧ Redeclared.history.length = 3 ∧
      Redeclared.meaning "f" = (Redeclared.history[0]?.bind (·.fns.head?)).map .fn ∧
      Redeclared.meaning "x" = (Redeclared.history[1]?.bind (·.fns.head?)).map .fn ∧
      Redeclared.meaning "rnd" = (Redeclared.history[1]?.bind (·.vars.getLast?)).map .var ∧
      (Redeclared.meaning "print").map Symbol.name = some "print" ∧
      Redeclared.meaning "missing" = none := by
  have resolves (name : String) : Redeclared.meaning name =
      (Redeclared.history.findSome? (·.symbol? name)).or
        (((Binding.builtinFns 100).find? fun f => f.name = name).map .fn) :=
    (Binding.historyScope_resolves Redeclared.isHistory 100 name).1
  simp only [resolves]
  exact ⟨Redeclared.isHistory, by decide +kernel⟩

end ScriptLang
