import ScriptLang.Proofs.LocalNames
import ScriptLang.Proofs.ComparedBinding
import ScriptLang.Proofs.RenamedUnits

/-! Code is retold if it is the same but for the names of variables. An expression in which local
variables have other names is bound to the same expression retold, if it is bound without a mistake. -/

namespace ScriptLang

def Relabelling.nameless : Relabelling where
  toRenaming := .identity
  label _ := upperBoundName
  hidden := rfl

def Var.Retold (v v' : Var) : Prop := v.rename .nameless = v'.rename .nameless

def Fn.Retold (f f' : Fn) : Prop := f.rename .nameless = f'.rename .nameless

def Expr.Retold (e e' : Expr) : Prop := e.rename .nameless = e'.rename .nameless

inductive Symbol.Retold : Symbol → Symbol → Prop
  | var {v v' : Var} : v.Retold v' → Retold (.var v) (.var v')
  | fn {f f' : Fn} : f.Retold f' → Retold (.fn f) (.fn f')

namespace Var.Retold

variable {v v' : Var} (retold : v.Retold v')

include retold

theorem ty : v'.ty = v.ty := (congrArg Var.ty retold).symm
theorem readOnly : v'.readOnly = v.readOnly := (congrArg Var.readOnly retold).symm

end Var.Retold

namespace Fn.Retold

variable {f f' : Fn} (retold : f.Retold f')

include retold

theorem id : f'.id = f.id := by
  have same := congrArg Fn.id retold
  simpa [Fn.rename, Fn.renumber, Fn.relabel, Relabelling.nameless, Renaming.identity] using same.symm

theorem returns : f'.returns = f.returns := (congrArg Fn.returns retold).symm

theorem types : f'.parameters.map Var.ty = f.parameters.map Var.ty := by
  have same := congrArg (fun f => f.parameters.map Var.ty) retold
  simpa only [Fn.types_rename] using same.symm

theorem count : f'.parameters.length = f.parameters.length := by
  simpa using congrArg List.length retold.types

end Fn.Retold

namespace Expr.Retold

variable {e e' : Expr} (retold : e.Retold e')

include retold

theorem ty : e'.ty = e.ty := by rw [← Expr.ty_rename e, ← Expr.ty_rename e', retold]

theorem isError : e'.isError = e.isError := by rw [Expr.isError, retold.ty, Expr.isError]

theorem constant? : e'.constant? = e.constant? := by
  rw [← Expr.constant?_rename e, ← Expr.constant?_rename e', retold]

theorem standsAlone : Binding.standsAlone e' = Binding.standsAlone e := by
  rw [← Binding.standsAlone_rename e, ← Binding.standsAlone_rename e', retold]

theorem convert (t : Ty) : (Expr.convert t e).Retold (.convert t e') := congrArg (Expr.convert t) retold

theorem unary (op : UnaryOp) : (Expr.unary op e).Retold (.unary op e') :=
  congrArg (Expr.unary op) retold

theorem binary (op : BinaryOp) {l l' : Expr} (right : l.Retold l') :
    (Expr.binary e op l).Retold (.binary e' op l') :=
  congrArg₂ (Expr.binary · op ·) retold right

end Expr.Retold

theorem Var.Retold.var {v v' : Var} (retold : v.Retold v') : (Expr.var v).Retold (.var v') :=
  congrArg Expr.var retold

theorem Var.Retold.assign {v v' : Var} {e e' : Expr} (retold : v.Retold v') (value : e.Retold e') :
    (Expr.assign v e).Retold (.assign v' e') := congrArg₂ Expr.assign retold value

theorem Expr.retoldAll {es es' : List Expr} (retold : List.Forall₂ Expr.Retold es es') :
    renameAll .nameless es = renameAll .nameless es' := by
  induction retold with
  | nil => rfl
  | cons first _ ih => exact congrArg₂ List.cons first ih

theorem Fn.Retold.call {f f' : Fn} {args args' : List Expr} (retold : f.Retold f')
    (values : List.Forall₂ Expr.Retold args args') : (Expr.call f args).Retold (.call f' args') :=
  congrArg₂ Expr.call retold (Expr.retoldAll values)

open Source (LocalRename)

/-- Names mean the same symbols retold, where `active` says that the old name stands for a variable
that is renamed. The scope of the unit itself has the same names in both. -/
structure Scope.Retold (r : LocalRename) (isLocal active : Bool) (a b : Scope) : Prop where
  lookup : ∀ name, name ≠ r.new →
    Option.Rel Symbol.Retold (a.lookup? name) (b.lookup? (r.text active name))
  isVar : active = true → ∃ v, a.lookup? r.old = some (.var v)
  new : ∀ name, name ≠ r.old → name ≠ r.new → a.inner.contains name = false →
    b.inner.contains name = false
  free : a.inner.contains r.old = false →
    b.inner.contains r.old = false ∧ b.inner.contains r.new = false
  inUnit : isLocal = false → active = false ∧ b.vars = a.vars ∧
    ∀ name, Option.Rel Symbol.Retold (a.lookupLocal? name) (b.lookupLocal? name)

namespace Scope.Retold

variable {r : LocalRename} {isLocal active : Bool} {a b : Scope}

theorem push (retold : a.Retold r isLocal active b) : a.push.Retold r true active b.push where
  lookup name other := by simpa using retold.lookup name other
  isVar isActive := by simpa using retold.isVar isActive
  new _ _ _ _ := rfl
  free _ := ⟨rfl, rfl⟩
  inUnit impossible := by contradiction

/-- A name that is called stands for the same function, or for a variable. -/
theorem callee (retold : a.Retold r isLocal active b) {name : String} (other : name ≠ r.new) :
    (∃ v, a.lookup? name = some (.var v)) ∨
      Option.Rel Symbol.Retold (a.lookup? name) (b.lookup? name) := by
  have related := retold.lookup name other
  by_cases isOld : name = r.old
  · cases active with
    | true => exact .inl (isOld ▸ retold.isVar rfl)
    | false => exact .inr (by rwa [LocalRename.text_false] at related)
  · exact .inr (by rwa [LocalRename.text_of_ne isOld] at related)

end Scope.Retold

namespace Binding

open Source (Token Name)

variable {file file' : Option String} {range range' : TextRange} {given : Prop} {e e' : Expr}
  {r : LocalRename} {isLocal active : Bool} {a b : Scope}

theorem requireValue_retold (retold : given → e.Retold e') :
    Reports given [] (requireValue file range e) (requireValue file' range' e') Expr.Retold := by
  refine .of_given (requireValue_sound False.elim) fun holds => ?_
  have related := retold holds
  unfold requireValue
  rw [related.ty]
  split
  · exact .of_refused rfl
  · exact .pure fun _ => related

theorem convert_retold {t t' : Ty} {explicit : Bool} (retold : given → e.Retold e')
    (target : given → t' = t) :
    Reports given [] (convert file range e t explicit) (convert file' range' e' t' explicit)
      Expr.Retold := by
  refine .of_given (convert_sound False.elim False.elim) fun holds => ?_
  have related := retold holds
  unfold convert
  rw [related.isError, related.ty, target holds]
  split
  · exact .pure fun _ => related
  · split
    · exact .of_refused rfl
    · exact .pure fun _ => related
    · exact .pure fun _ => related.convert t
    · split
      · exact .of_refused rfl
      · exact .pure fun _ => related.convert t

theorem unary_retold {op op' : Token} (kind : op'.kind = op.kind) (retold : given → e.Retold e') :
    Reports given [] (unary file op e) (unary file' op' e') Expr.Retold := by
  refine .of_given (unary_sound False.elim) fun holds => ?_
  have related := retold holds
  unfold unary
  rw [related.isError, related.ty, kind]
  split
  · exact .pure fun _ => rfl
  · split
    · exact .pure fun _ => related.unary _
    · exact .of_refused rfl

theorem binary_retold {op op' : Token} {kind : Source.Kind} {l l' r r' : Expr}
    (left : given → l.Retold l') (right : given → r.Retold r') :
    Reports given [] (binary file op kind l r) (binary file' op' kind l' r') Expr.Retold := by
  refine .of_given (binary_sound False.elim False.elim) fun holds => ?_
  have relatedL := left holds
  have relatedR := right holds
  unfold binary
  rw [relatedL.isError, relatedL.ty, relatedR.isError, relatedR.ty]
  split
  · exact .pure fun _ => rfl
  · split
    · exact .pure fun _ => relatedL.binary _ relatedR
    · exact .of_refused rfl

theorem resolveVar_retold {n : Name} (other : n.text ≠ r.new)
    (scopes : given → a.Retold r isLocal active b) :
    Reports given [] (resolveVar file a n) (resolveVar file' b (r.name active n))
      (Option.Rel Var.Retold) := by
  refine .of_given (resolveVar_sound n) fun holds => ?_
  have related := (scopes holds).lookup n.text other
  unfold resolveVar LocalRename.name
  generalize a.lookup? n.text = inA at related ⊢
  generalize b.lookup? (r.text active n.text) = inB at related ⊢
  cases related with
  | none => exact .of_refused rfl
  | some symbols =>
    cases symbols with
    | var same => exact .pure fun _ => .some same
    | fn same => exact .of_refused rfl

theorem assignTo_retold {op op' : Token} {v v' : Var} (kind : op'.kind = op.kind)
    (target : given → v.Retold v') (value : given → e.Retold e') :
    Reports given [] (assignTo file op range e v) (assignTo file' op' range' e' v') Expr.Retold := by
  refine .of_given (assignTo_sound (v := v) False.elim False.elim False.elim) fun holds => ?_
  have related := target holds
  unfold assignTo
  rw [kind]
  cases op.kind.compound? with
  | none =>
    refine (convert_retold (fun _ => value holds) fun _ => related.ty).bindQuiet fun c c' => ?_
    exact .pure fun converted => related.assign converted.2
  | some k =>
    refine (binary_retold (fun _ => related.var) fun _ => value holds).bindQuiet fun c c' => ?_
    refine .of_given (P := fun _ => True) ?_ fun combined => ?_
    · split
      · exact .pure fun _ => trivial
      · exact (convert_sound False.elim False.elim).bind fun _ => .pure fun _ => trivial
    rw [combined.2.isError]
    split
    · exact .pure fun _ => rfl
    · refine (convert_retold (fun _ => combined.2) fun _ => related.ty).bindQuiet fun d d' => ?_
      exact .pure fun converted => related.assign converted.2

theorem assign_retold {op op' : Token} {target : Name} (kind : op'.kind = op.kind)
    (other : target.text ≠ r.new) (scopes : given → a.Retold r isLocal active b)
    (value : given → e.Retold e') :
    Reports given [] (assign file a target op range e)
      (assign file' b (r.name active target) op' range' e') Expr.Retold := by
  have sound (v : Var) : Sound False (assignTo file op range e v) _ :=
    assignTo_sound (v := v) False.elim False.elim False.elim
  rw [assign_eq, assign_eq]
  refine (resolveVar_retold other scopes).bindQuiet fun v? v'? => ?_
  refine .of_given (P := fun _ => True) ?_ fun holds => ?_
  · cases v? with
    | none => exact .pure fun _ => trivial
    | some v =>
      dsimp only
      split
      · exact .reported rfl fun _ => (sound v).mono id fun _ _ _ => trivial
      · exact (sound v).mono id fun _ _ _ => trivial
  cases holds.2 with
  | none => exact .pure fun _ => rfl
  | some related =>
    dsimp only
    rw [related.readOnly]
    split
    · exact .of_reported rfl fun _ => (sound _).mono id fun _ _ _ => trivial
    · exact assignTo_retold kind (fun _ => related) fun _ => value holds.1

theorem convertArgs_retold {sources sources' : List Source.Expr} {args args' : List Expr}
    {ps ps' : List Var} (length : sources'.length = sources.length)
    (types : ps'.map Var.ty = ps.map Var.ty) (retold : List.Forall₂ Expr.Retold args args') :
    Reports given [] (convertArgs file sources args ps) (convertArgs file' sources' args' ps')
      (List.Forall₂ Expr.Retold) := by
  induction retold generalizing sources sources' ps ps' given with
  | nil =>
    have none (file : Option String) (sources : List Source.Expr) (ps : List Var) :
        convertArgs file sources [] ps = pure [] := by
      cases sources <;> rfl
    rw [none, none]
    exact .pure fun _ => .nil
  | cons related _ ih =>
    cases sources with
    | nil =>
      obtain rfl := List.eq_nil_of_length_eq_zero length
      exact .pure fun _ => .nil
    | cons source sources =>
      cases sources' with
      | nil => contradiction
      | cons source' sources' =>
        cases ps with
        | nil =>
          obtain rfl := List.map_eq_nil_iff.1 types
          exact .pure fun _ => .nil
        | cons p ps =>
          obtain ⟨p', ps', rfl, same, rest⟩ := List.map_eq_cons_iff.1 types
          refine (convert_retold (fun _ => related) fun _ => same).bindQuiet fun first first' => ?_
          refine (ih (Nat.succ.inj length) rest).bindQuiet fun more more' => ?_
          exact .pure fun holds => .cons holds.1.2 holds.2

theorem callFn_retold {callee : Name} {sources sources' : List Source.Expr}
    {args args' : List Expr} (other : callee.text ≠ r.new)
    (length : sources'.length = sources.length) (scopes : a.Retold r isLocal active b)
    (retold : List.Forall₂ Expr.Retold args args') :
    Reports given [] (callFn file a range callee sources args)
      (callFn file' b range' (r.name false callee) sources' args') Expr.Retold := by
  have same : (r.name false callee).text = callee.text := LocalRename.text_name_false callee
  rcases scopes.callee other with ⟨v, isVar⟩ | related
  · unfold callFn
    rw [isVar]
    exact .of_refused rfl
  · unfold callFn
    rw [same]
    generalize a.lookup? callee.text = inA at related ⊢
    generalize b.lookup? callee.text = inB at related ⊢
    cases related with
    | none => exact .of_refused rfl
    | some symbols =>
      cases symbols with
      | var _ => exact .of_refused rfl
      | fn related =>
        dsimp only
        rw [retold.length_eq, related.count]
        split
        · exact .of_refused rfl
        · refine (convertArgs_retold length related.types retold).bindQuiet fun cs cs' => ?_
          exact .pure fun holds => related.call holds.2

theorem call_retold {callee : Name} {sources sources' : List Source.Expr}
    {args args' : List Expr} (other : callee.text ≠ r.new)
    (length : sources'.length = sources.length) (scopes : given → a.Retold r isLocal active b)
    (retold : given → List.Forall₂ Expr.Retold args args') :
    Reports given [] (call file a range callee sources args)
      (call file' b range' (r.name false callee) sources' args') Expr.Retold := by
  refine .of_given (call_sound False.elim False.elim) fun holds => ?_
  have allRetold := retold holds
  have same : (r.name false callee).text = callee.text := LocalRename.text_name_false callee
  by_cases conversion : IsConversion callee sources args
  · obtain ⟨⟨ty, named⟩, oneSource, oneArg⟩ := conversion
    obtain ⟨source, rfl⟩ := List.length_eq_one_iff.1 oneSource
    obtain ⟨arg, rfl⟩ := List.length_eq_one_iff.1 oneArg
    obtain ⟨source', rfl⟩ := List.length_eq_one_iff.1 length
    obtain ⟨arg', none, related, isNone, rfl⟩ := List.forall₂_cons_left_iff.1 allRetold
    obtain rfl := List.forall₂_nil_left_iff.1 isNone
    rw [call_of_conversion named, call_of_conversion (same ▸ named)]
    exact convert_retold (fun _ => related) fun _ => rfl
  · have conversion' : ¬IsConversion (r.name false callee) sources' args' := fun is => conversion
      ⟨same ▸ is.named, length ▸ is.source, allRetold.length_eq ▸ is.arg⟩
    rw [call_eq_callFn conversion, call_eq_callFn conversion']
    exact callFn_retold other length (scopes holds) allRetold

theorem length_exprs (es : List Source.Expr) : (r.exprs active es).length = es.length := by
  induction es with
  | nil => rfl
  | cons e es ih => exact congrArg (· + 1) ih

mutual

/-- An expression with other names is bound to the same expression retold. -/
theorem expr_retold (e : Source.Expr) {given : Prop} (others : ∀ name ∈ e.names, name ≠ r.new)
    (scopes : given → a.Retold r isLocal active b) :
    Reports given [] (expr file a e) (expr file' b (r.expr active e)) Expr.Retold := by
  cases e with
  | literal m v => exact .pure fun _ => rfl
  | name m n =>
    refine (resolveVar_retold (others _ List.mem_cons_self) scopes).bindQuiet fun v? v'? => ?_
    refine .of_given (P := fun _ => True) ?_ fun holds => ?_
    · cases v? <;> exact .pure fun _ => trivial
    cases holds.2 with
    | none => exact .pure fun _ => rfl
    | some related => exact .pure fun _ => related.var
  | assign m target op value =>
    obtain ⟨here, others⟩ := List.forall_mem_cons.1 others
    refine (expr_retold value others scopes).bindQuiet fun c c' => ?_
    refine (requireValue_retold And.right).bindQuiet fun c c' => ?_
    exact assign_retold rfl here (fun holds => scopes holds.1.1) And.right
  | unary m op e =>
    refine (expr_retold e others scopes).bindQuiet fun c c' => ?_
    refine (requireValue_retold And.right).bindQuiet fun c c' => ?_
    exact unary_retold rfl And.right
  | binary m left op right =>
    obtain ⟨inLeft, inRight⟩ := List.forall_mem_append.1 others
    refine (expr_retold left inLeft scopes).bindQuiet fun l l' => ?_
    refine (requireValue_retold And.right).bindQuiet fun l l' => ?_
    refine (expr_retold right inRight fun holds => scopes holds.1.1).bindQuiet fun c c' => ?_
    refine (requireValue_retold And.right).bindQuiet fun c c' => ?_
    exact binary_retold (fun holds => holds.1.1.2) And.right
  | range m lower upper =>
    obtain ⟨inLower, inUpper⟩ := List.forall_mem_append.1 others
    refine (expr_retold lower inLower scopes).bindQuiet fun l l' => ?_
    refine (requireValue_retold And.right).bindQuiet fun l l' => ?_
    refine (expr_retold upper inUpper fun holds => scopes holds.1.1).bindQuiet fun u u' => ?_
    refine (requireValue_retold And.right).bindQuiet fun u u' => ?_
    exact .of_refused rfl
  | paren m e => exact expr_retold e others scopes
  | call m callee args =>
    obtain ⟨here, others⟩ := List.forall_mem_cons.1 others
    refine (exprs_retold args others scopes).bindQuiet fun cs cs' => ?_
    exact call_retold here (length_exprs args) (fun holds => scopes holds.1) And.right

theorem exprs_retold (es : List Source.Expr) {given : Prop}
    (others : ∀ name ∈ Source.Expr.namesOf es, name ≠ r.new)
    (scopes : given → a.Retold r isLocal active b) :
    Reports given [] (exprs file a es) (exprs file' b (r.exprs active es))
      (List.Forall₂ Expr.Retold) := by
  cases es with
  | nil => exact .pure fun _ => .nil
  | cons e es =>
    obtain ⟨inFirst, inRest⟩ := List.forall_mem_append.1 others
    refine (expr_retold e inFirst scopes).bindQuiet fun c c' => ?_
    refine (requireValue_retold And.right).bindQuiet fun c c' => ?_
    refine (exprs_retold es inRest fun holds => scopes holds.1.1).bindQuiet fun cs cs' => ?_
    exact .pure fun holds => .cons holds.1.2 holds.2

end

theorem value_retold {e : Source.Expr} (others : ∀ name ∈ e.names, name ≠ r.new)
    (scopes : given → a.Retold r isLocal active b) :
    Reports given [] (value file a e) (value file' b (r.expr active e)) Expr.Retold :=
  (expr_retold e others scopes).bindQuiet fun _ _ => requireValue_retold And.right

theorem valueOf_retold {e : Source.Expr} {t : Ty} (others : ∀ name ∈ e.names, name ≠ r.new)
    (scopes : given → a.Retold r isLocal active b) :
    Reports given [] (valueOf file a t e) (valueOf file' b t (r.expr active e)) Expr.Retold :=
  (value_retold others scopes).bindQuiet fun _ _ => convert_retold And.right fun _ => rfl

end Binding

end ScriptLang
