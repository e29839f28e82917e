import ScriptLang.Proofs.RenamedUnits

/-! The scope behind a statement differs from the one before it in the names that the statement puts
there, and in nothing else. So the names that a unit leaves for later ones can be read off its
source, and a later unit finds under each of them the symbol that the unit found last. -/

namespace ScriptLang

namespace OrderedMap

variable {κ α : Type} [DecidableEq κ] {m : OrderedMap κ α} {k : κ} {v : α}

theorem mem_entries_of_get? (given : m.get? k = some v) : (k, v) ∈ m.entries := by
  obtain ⟨i, at_i, found⟩ := Option.bind_eq_some_iff.1 given
  obtain ⟨⟨j, w⟩, entry, rfl⟩ := Option.map_eq_some_iff.1 found
  have key := keys_getElem?_of_position? at_i
  rw [keys, List.getElem?_map, entry] at key
  obtain rfl := Option.some.inj key
  exact List.mem_of_getElem? entry

theorem get?_eq_some_iff : m.get? k = some v ↔ (k, v) ∈ m.entries := by
  refine ⟨mem_entries_of_get?, fun member => ?_⟩
  have isKey : k ∈ m.keys := List.mem_map_of_mem member
  obtain ⟨w, found⟩ := Option.ne_none_iff_exists'.1 fun none => get?_eq_none_iff.1 none isKey
  have same : (k, w) = (k, v) :=
    List.inj_on_of_nodup_map m.nodup (mem_entries_of_get? found) member rfl
  rw [found, (Prod.mk.inj same).2]

end OrderedMap

def Symbol.name : Symbol → String
  | var v => v.name
  | fn f => f.name

namespace Scope

def Declares (s : Scope) (name : String) : Prop := (s.lookupLocal? name).isSome = true

def Named (s : Scope) : Prop := ∀ e ∈ s.inner.entries, e.2.name = e.1

variable {a b c : Scope} {name : String} {symbol : Symbol}

theorem lookupLocal?_eq_none_iff : a.lookupLocal? name = none ↔ ¬a.Declares name := by
  rw [Declares, Option.not_isSome_iff_eq_none]

namespace Named

theorem name_eq (named : a.Named) (found : a.lookupLocal? name = some symbol) :
    symbol.name = name := named _ (OrderedMap.mem_entries_of_get? found)

theorem lookupLocal? (named : a.Named) (member : symbol ∈ a.symbols) :
    a.lookupLocal? symbol.name = some symbol := by
  obtain ⟨e, entry, rfl⟩ := List.mem_map.1 member
  rw [named e entry]
  exact OrderedMap.get?_eq_some_iff.2 entry

theorem replace (named : a.Named) (called : symbol.name = name) : (a.replace name symbol).Named := by
  rintro ⟨other, second⟩ entry
  have found : (a.replace name symbol).lookupLocal? other = some second :=
    OrderedMap.get?_eq_some_iff.2 entry
  rw [lookupLocal?_replace] at found
  split at found
  next same => exact (Option.some.inj found ▸ called).trans same.symm
  next => exact named.name_eq found

theorem push : a.push.Named := List.forall_mem_nil _

end Named

/-- The second scope differs from the first one in that the names stand for something in it. -/
structure Grown (names : List String) (a b : Scope) : Prop where
  outer : b.outer = a.outer
  others : ∀ name ∉ names, b.lookupLocal? name = a.lookupLocal? name
  declared : ∀ name ∈ names, b.Declares name
  named : a.Named → b.Named

namespace Grown

variable {names more : List String}

theorem refl (a : Scope) : Grown [] a a := ⟨rfl, fun _ _ => rfl, List.forall_mem_nil _, id⟩

theorem declares_iff (grown : Grown names a b) : b.Declares name ↔ name ∈ names ∨ a.Declares name := by
  by_cases member : name ∈ names
  · exact ⟨fun _ => .inl member, fun _ => grown.declared name member⟩
  · unfold Declares
    rw [grown.others name member]
    exact ⟨.inr, fun either => either.resolve_left member⟩

theorem trans (first : Grown names a b) (second : Grown more b c) : Grown (names ++ more) a c where
  outer := second.outer.trans first.outer
  others name other := by
    rw [List.mem_append, not_or] at other
    rw [second.others name other.2, first.others name other.1]
  declared := List.forall_mem_append.2
    ⟨fun name member => second.declares_iff.2 (.inr (first.declared name member)), second.declared⟩
  named named := second.named (first.named named)

theorem taken (taken : a.declare? name symbol = none) : Grown [name] a a := by
  refine ⟨rfl, fun _ _ => rfl, List.forall_mem_singleton.2 ?_, id⟩
  unfold declare? at taken
  split at taken
  next isTaken => rwa [OrderedMap.contains_eq_isSome] at isTaken
  next => contradiction

theorem declare (declared : a.declare? name symbol = some b) (called : symbol.name = name) :
    Grown [name] a b := by
  unfold declare? at declared
  split at declared
  next => contradiction
  next =>
    obtain rfl := Option.some.inj declared
    refine ⟨rfl, fun other differs => ?_, List.forall_mem_singleton.2 ?_, fun named =>
      named.replace called⟩
    · rw [lookupLocal?_replace, if_neg (mt List.mem_singleton.2 differs)]
    · simp [Declares]

end Grown

theorem lookup?_eq (s : Scope) (name : String) :
    s.lookup? name = (s.lookupLocal? name).or (s.outer.findSome? (·.get? name)) := by
  rw [lookup?, List.findSome?_cons, lookupLocal?]
  cases s.inner.get? name <;> rfl

end Scope

namespace Binding

open Source (Token Name TypeClause)

variable {c : BindContext} {file : Option String} {scope : Scope}

theorem declareVar_grows {name : Name} {readOnly : Bool} {t : Ty} {constant : Option Value} :
    Yields (declareVar c scope name readOnly t constant) fun r => scope.Grown [name.text] r.2 := by
  unfold declareVar
  have made (kind : VarKind) :
      Yields (Bind.fresh (Var.create name.text readOnly t kind constant)) (·.name = name.text) :=
    .fresh fun _ => rfl
  refine (made _).bind fun v called => ?_
  cases declared : scope.declare? name.text (.var v) with
  | none => exact .after fun _ => .pure (.taken declared)
  | some scope' => exact .pure (.declare declared called)

theorem stmt_grows {c : BindContext} {scope : Scope} (isGlobal : Bool) (s : Source.Stmt) :
    Yields (stmt c isGlobal scope s) fun r => scope.Grown s.exports r.2 := by
  cases s with
  | block m body => exact .after fun _ => .pure (.refl scope)
  | declare m keyword name type source =>
    have whole : Yields (declaration c scope keyword name type source) fun r =>
        scope.Grown [name.text] r.2 := by
      rw [declaration_eq]
      refine .after fun _ => .after fun _ => .after fun _ => ?_
      exact declareVar_grows.bind fun r grown => .pure grown
    exact whole
  | ifThen m condition t =>
    exact .after fun _ => (stmt_grows false t).bind fun r grown => .pure grown
  | ifElse m condition t e =>
    refine .after fun _ => (stmt_grows false t).bind fun r grown => ?_
    exact (stmt_grows false e).bind fun r' grown' => .pure (grown.trans grown')
  | whileDo m condition body =>
    exact .after fun _ => .after fun _ => (stmt_grows false body).bind fun r grown => .pure grown
  | doWhile m body condition =>
    exact .after fun _ => (stmt_grows false body).bind fun r grown => .after fun _ => .pure grown
  | forIn m name range body =>
    exact .after fun _ => .after fun _ => .after fun _ => .after fun _ => .pure (.refl scope)
  | jump keyword => exact .after fun _ => .pure (.refl scope)
  | ret m keyword value =>
    cases value with
    | none => exact .after fun _ => .pure (.refl scope)
    | some e => exact .after fun _ => .after fun _ => .pure (.refl scope)
  | expr m e =>
    refine .after fun bound => ?_
    dsimp only
    split
    · exact .after fun _ => .pure (.refl scope)
    · exact .pure (.refl scope)

theorem globals_grow (ss : List Source.Stmt) :
    Yields (globals c scope ss) fun r => scope.Grown (ss.flatMap Source.Stmt.exports) r.2 := by
  induction ss generalizing scope with
  | nil => exact .pure (.refl scope)
  | cons s ss ih =>
    exact (stmt_grows true s).bind fun r grown => ih.bind fun r' grown' =>
      .pure (grown.trans grown')

theorem declareFns_grow (fs : List Source.Function) :
    Yields (declareFns file scope fs) fun r => scope.Grown (fs.map (·.name.text)) r.2 := by
  induction fs generalizing scope with
  | nil => exact .pure (.refl scope)
  | cons f fs ih =>
    have made : Yields (head file f) (·.name = f.name.text) :=
      .after fun ps => .after fun returns => .fresh fun _ => rfl
    have added (fn : Fn) (called : fn.name = f.name.text) :
        Yields (addFn file scope f fn) fun r => scope.Grown [f.name.text] r.2 := by
      unfold addFn
      cases declared : scope.declare? f.name.text (.fn fn) with
      | none => exact .after fun _ => .pure (.taken declared)
      | some scope' => exact .pure (.declare declared called)
    unfold declareFns
    rw [declareFn_eq_head, bind_assoc]
    refine made.bind fun fn called => (added fn called).bind fun r grown => ?_
    exact ih.bind fun r' grown' => .pure (grown.trans grown')

end Binding

namespace Scope

variable {x : Scope}

theorem mem_vars {v : Var} : v ∈ x.vars ↔ Symbol.var v ∈ x.symbols := by
  refine List.mem_filterMap.trans ⟨?_, fun member => ⟨_, member, rfl⟩⟩
  rintro ⟨symbol, member, isVar⟩
  cases symbol with
  | var w => exact Option.some.inj isVar ▸ member
  | fn f => contradiction

theorem mem_fns {f : Fn} : f ∈ x.fns ↔ Symbol.fn f ∈ x.symbols := by
  refine List.mem_filterMap.trans ⟨?_, fun member => ⟨_, member, rfl⟩⟩
  rintro ⟨symbol, member, isFn⟩
  cases symbol with
  | var v => contradiction
  | fn g => exact Option.some.inj isFn ▸ member

end Scope

def Declarations.names (d : Declarations) : List String := d.fns.map Fn.name ++ d.vars.map Var.name

structure Declarations.From (d : Declarations) (x : Scope) : Prop where
  fns : d.fns = x.fns
  vars : d.vars = x.vars
  named : x.Named

namespace Declarations.From

variable {x : Scope} {d : Declarations} {name : String}

theorem lookupVar (origin : d.From x) {v : Var} (member : v ∈ d.vars) :
    x.lookupLocal? v.name = some (.var v) := by
  have symbol : Symbol.var v ∈ x.symbols := Scope.mem_vars.1 (origin.vars ▸ member)
  exact origin.named.lookupLocal? symbol

theorem lookupFn (origin : d.From x) {f : Fn} (member : f ∈ d.fns) :
    x.lookupLocal? f.name = some (.fn f) := by
  have symbol : Symbol.fn f ∈ x.symbols := Scope.mem_fns.1 (origin.fns ▸ member)
  exact origin.named.lookupLocal? symbol

theorem mem_names_iff (origin : d.From x) : name ∈ d.names ↔ x.Declares name := by
  rw [names, List.mem_append, List.mem_map, List.mem_map]
  constructor
  · rintro (⟨f, member, rfl⟩ | ⟨v, member, rfl⟩)
    · exact Option.isSome_of_eq_some (origin.lookupFn member)
    · exact Option.isSome_of_eq_some (origin.lookupVar member)
  · intro declares
    obtain ⟨symbol, found⟩ := Option.isSome_iff_exists.1 declares
    have member := OrderedMap.mem_values_of_get? found
    have called := origin.named.name_eq found
    cases symbol with
    | var v => exact .inr ⟨v, origin.vars ▸ Scope.mem_vars.2 member, called⟩
    | fn f => exact .inl ⟨f, origin.fns ▸ Scope.mem_fns.2 member, called⟩

end Declarations.From

namespace Binding

/-- A name that is declared anew means the last symbol that it is declared as. -/
theorem lookup?_foldl_replace_mem {ι : Type} {key : ι → String} {symbol : ι → Symbol}
    {items : List ι} {scope : Scope} {i : ι} (member : i ∈ items)
    (unique : ∀ j ∈ items, key j = key i → symbol j = symbol i) :
    (items.foldl (fun s j => s.replace (key j) (symbol j)) scope).lookup? (key i) =
      some (symbol i) := by
  induction items generalizing scope i with
  | nil => contradiction
  | cons j items ih =>
    obtain ⟨first, rest⟩ := List.forall_mem_cons.1 unique
    rw [List.foldl_cons]
    by_cases again : ∃ k ∈ items, key k = key i
    · obtain ⟨k, later, same⟩ := again
      have isLast : symbol k = symbol i := rest k later same
      rw [← same, ← isLast]
      refine ih later fun l within named => ?_
      rw [isLast]
      exact rest l within (named.trans same)
    · have others : ∀ k ∈ items, key k ≠ key i := fun k within same => again ⟨k, within, same⟩
      obtain rfl : i = j := (List.mem_cons.1 member).resolve_right fun later => others i later rfl
      rw [lookup?_foldl_replace others, Scope.lookup?_replace, if_pos rfl]

/-- Behind the declarations of a unit, a name means what it meant there last, or else what it meant
before. -/
theorem lookup?_addDeclarations_from {x : Scope} {d : Declarations} (origin : d.From x)
    (scope : Scope) (name : String) :
    (addDeclarations scope d).lookup? name = (x.lookupLocal? name).or (scope.lookup? name) := by
  have noVar (none : ∀ v, x.lookupLocal? name ≠ some (.var v)) : ∀ v ∈ d.vars, v.name ≠ name :=
    fun v member same => none v (same ▸ origin.lookupVar member)
  cases found : x.lookupLocal? name with
  | none =>
    refine lookup?_addDeclarations ⟨noVar (by simp [found]), fun f member same => ?_⟩
    have isFn := origin.lookupFn member
    rw [same, found] at isFn
    contradiction
  | some symbol =>
    have member : symbol ∈ x.symbols := OrderedMap.mem_values_of_get? found
    have called := origin.named.name_eq found
    cases symbol with
    | var v =>
      obtain rfl : v.name = name := called
      refine lookup?_foldl_replace_mem (origin.vars ▸ Scope.mem_vars.2 member) fun w within same => ?_
      have isVar := origin.lookupVar within
      rw [same, found] at isVar
      exact (Option.some.inj isVar).symm
    | fn f =>
      obtain rfl : f.name = name := called
      refine (lookup?_foldl_replace (noVar (by simp [found]))).trans ?_
      refine lookup?_foldl_replace_mem (origin.fns ▸ Scope.mem_fns.2 member) fun g within same => ?_
      have isFn := origin.lookupFn within
      rw [same, found] at isFn
      exact (Option.some.inj isFn).symm

variable {scriptMode : Bool} {file : Option String} {history : List Declarations}
  {u : Source.Unit} {next : Nat}

theorem headsPass_grown : (unitScope history next).Grown (u.functions.map (·.name.text))
    (headsPass file history u next).1.2 := declareFns_grow _ _

theorem globalsPass_grown : (headsPass file history u next).1.2.Grown
    (u.statements.flatMap Source.Stmt.exports) (globalsPass scriptMode file history u next).1.2 :=
  globals_grow _ _

/-- What a unit declares for later ones is what is in its scope behind its statements. -/
theorem bindUnit_from : (bindUnit scriptMode file history u next).1.declarations.From
    (globalsPass scriptMode file history u next).1.2 :=
  ⟨rfl, rfl, globalsPass_grown.named (headsPass_grown.named Scope.Named.push)⟩

end Binding

end ScriptLang
