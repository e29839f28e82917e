import Mathlib.Data.List.Forall2
import ScriptLang.Proofs.Assembly
import ScriptLang.Proofs.LoopStack
import ScriptLang.Proofs.StrayJumps

/-! A statement and what it is bound to have the same parts at the same places. So a jump in the source
can be compared with the goto in its place: it goes to a label of the innermost loop around it. -/

namespace ScriptLang

namespace Source.Stmt

/-- The statements directly in a statement. Those in a loop are its body. -/
def parts : Stmt → List Stmt
  | block _ body => body
  | ifThen _ _ t => [t]
  | ifElse _ _ t e => [t, e]
  | whileDo _ _ body | doWhile _ body _ | forIn _ _ _ body => [body]
  | declare _ _ _ _ _ | jump _ | ret _ _ _ | expr _ _ => []

def isLoop : Stmt → Bool
  | whileDo _ _ _ | doWhile _ _ _ | forIn _ _ _ _ => true
  | block _ _ | declare _ _ _ _ _ | ifThen _ _ _ | ifElse _ _ _ _ | jump _ | ret _ _ _ | expr _ _ =>
    false

def isJump : Stmt → Bool
  | jump _ => true
  | block _ _ | declare _ _ _ _ _ | ifThen _ _ _ | ifElse _ _ _ _ | whileDo _ _ _ | doWhile _ _ _
  | forIn _ _ _ _ | ret _ _ _ | expr _ _ => false

/-- The statement at a place: the numbers of the parts on the way to it. -/
def at? : Stmt → List Nat → Option Stmt
  | s, [] => some s
  | s, i :: place => s.parts[i]?.bind (·.at? place)

def inLoop : Stmt → List Nat → Bool
  | _, [] => false
  | s, i :: place => s.parts[i]?.any fun part => s.isLoop || part.inLoop place

end Source.Stmt

namespace Stmt

def parts : Stmt → List Stmt
  | block body => body
  | ifThen _ t => [t]
  | ifElse _ t e => [t, e]
  | whileDo _ body _ | doWhile body _ _ | forIn _ _ body _ => [body]
  | declare _ _ | label _ | goto _ | gotoIf _ _ _ | ret _ | expr _ => []

def loop? : Stmt → Option LoopLabels
  | whileDo _ _ labels | doWhile _ _ labels | forIn _ _ _ labels => some labels
  | block _ | declare _ _ | ifThen _ _ | ifElse _ _ _ | label _ | goto _ | gotoIf _ _ _ | ret _
  | expr _ => none

def isGoto : Stmt → Bool
  | goto _ => true
  | block _ | declare _ _ | ifThen _ _ | ifElse _ _ _ | whileDo _ _ _ | doWhile _ _ _
  | forIn _ _ _ _ | label _ | gotoIf _ _ _ | ret _ | expr _ => false

def at? : Stmt → List Nat → Option Stmt
  | s, [] => some s
  | s, i :: place => s.parts[i]?.bind (·.at? place)

/-- The labels of the innermost loop whose body contains the place. Where no loop of the statement
does, they are those of the loop around it. -/
def innermost? (around : Option LoopLabels) : Stmt → List Nat → Option LoopLabels
  | _, [] => around
  | s, i :: place =>
    match s.parts[i]? with
    | some part => innermost? (s.loop?.or around) part place
    | none => around

end Stmt

def LoopLabels.target (labels : LoopLabels) (keyword : Source.Kind) : Label :=
  if keyword = .breakKeyword then labels.onBreak else labels.onContinue

/-- What a jump becomes, given the loop around it. -/
def jumpTo (keyword : Source.Kind) : Option LoopLabels → Stmt
  | some labels => .goto (labels.target keyword)
  | none => .expr .error

/-- The jumps of a source statement reach their loops in the bound statement, given the loop around
both. -/
structure JumpsResolved (around : Option LoopLabels) (s : Source.Stmt) (b : Stmt) : Prop where
  /-- A jump goes to the innermost loop around its place. There is one just if the source has one. -/
  jumps : ∀ place keyword, s.at? place = some (.jump keyword) →
    b.at? place = some (jumpTo keyword.kind (b.innermost? around place)) ∧
      (b.innermost? around place).isSome = (around.isSome || s.inLoop place)
  /-- A goto stands for a jump. -/
  gotos : ∀ place target, b.at? place = some (.goto target) →
    ∃ keyword, s.at? place = some (.jump keyword)

namespace Source.Stmt

variable {keyword : Token}

theorem strayJumpsOf_eq_flatMap (ss : List Stmt) : strayJumpsOf ss = ss.flatMap strayJumps := by
  induction ss with
  | nil => rfl
  | cons s ss ih => rw [strayJumpsOf, List.flatMap_cons, ih]

theorem strayJumps_eq_flatMap {s : Stmt} (noJump : s.isJump = false) (noLoop : s.isLoop = false) :
    s.strayJumps = s.parts.flatMap strayJumps := by
  cases s with
  | block m body => exact strayJumpsOf_eq_flatMap body
  | jump keyword => contradiction
  | whileDo m condition body => contradiction
  | doWhile m body condition => contradiction
  | forIn m name range body => contradiction
  | _ => simp [strayJumps, parts]

theorem mem_strayJumps {s : Stmt} {place : List Nat} (found : s.at? place = some (.jump keyword))
    (outside : s.inLoop place = false) : keyword ∈ s.strayJumps := by
  induction place generalizing s with
  | nil =>
    obtain rfl : s = .jump keyword := Option.some.inj found
    exact List.mem_singleton.2 rfl
  | cons i place ih =>
    obtain ⟨part, isPart, within⟩ := Option.bind_eq_some_iff.1 found
    rw [inLoop, isPart, Option.any_some, Bool.or_eq_false_iff] at outside
    have noJump : s.isJump = false := by
      cases s with
      | jump keyword => contradiction
      | _ => rfl
    rw [strayJumps_eq_flatMap noJump outside.1]
    exact List.mem_flatMap.2 ⟨part, List.mem_of_getElem? isPart, ih within outside.2⟩

/-- A jump of a part is one of the whole. -/
theorem exists_place_of_part {s part : Stmt} (member : part ∈ s.parts) (noLoop : s.isLoop = false)
    (found : ∃ place, part.at? place = some (.jump keyword) ∧ part.inLoop place = false) :
    ∃ place, s.at? place = some (.jump keyword) ∧ s.inLoop place = false := by
  obtain ⟨i, isPart⟩ := List.mem_iff_getElem?.1 member
  obtain ⟨place, within, outside⟩ := found
  exact ⟨i :: place, by rw [at?, isPart, Option.bind_some, within],
    by rw [inLoop, isPart, Option.any_some, noLoop, outside, Bool.or_false]⟩

mutual

theorem exists_place_of_strayJump (s : Stmt) (member : keyword ∈ s.strayJumps) :
    ∃ place, s.at? place = some (.jump keyword) ∧ s.inLoop place = false := by
  cases s with
  | block m body =>
    obtain ⟨part, within, found⟩ := exists_part_of_strayJump body member
    exact exists_place_of_part within rfl found
  | ifThen m condition t =>
    exact exists_place_of_part List.mem_cons_self rfl (exists_place_of_strayJump t member)
  | ifElse m condition t e =>
    rcases List.mem_append.1 member with first | second
    · exact exists_place_of_part List.mem_cons_self rfl (exists_place_of_strayJump t first)
    · exact exists_place_of_part (List.mem_cons_of_mem _ List.mem_cons_self) rfl
        (exists_place_of_strayJump e second)
  | jump keyword' =>
    obtain rfl := List.mem_singleton.1 member
    exact ⟨[], rfl, rfl⟩
  | _ => exact (List.not_mem_nil member).elim

theorem exists_part_of_strayJump (ss : List Stmt) (member : keyword ∈ strayJumpsOf ss) :
    ∃ s ∈ ss, ∃ place, s.at? place = some (.jump keyword) ∧ s.inLoop place = false := by
  cases ss with
  | nil => exact (List.not_mem_nil member).elim
  | cons s ss =>
    rcases List.mem_append.1 member with first | later
    · exact ⟨s, List.mem_cons_self, exists_place_of_strayJump s first⟩
    · obtain ⟨s', within, found⟩ := exists_part_of_strayJump ss later
      exact ⟨s', List.mem_cons_of_mem s within, found⟩

end

/-- The stray jumps are those whose places are in no loop. -/
theorem mem_strayJumps_iff {s : Stmt} : keyword ∈ s.strayJumps ↔
    ∃ place, s.at? place = some (.jump keyword) ∧ s.inLoop place = false :=
  ⟨exists_place_of_strayJump s, fun ⟨_, found, outside⟩ => mem_strayJumps found outside⟩

end Source.Stmt

/-- Entries of related lists stand at the same places. -/
theorem getElem?_of_forall₂ {α β : Type} {R : α → β → Prop} {xs : List α} {ys : List β}
    (related : List.Forall₂ R xs ys) {i : Nat} {y : β} (found : ys[i]? = some y) :
    ∃ x, xs[i]? = some x ∧ R x y := by
  induction related generalizing i with
  | nil => contradiction
  | @cons x _ _ _ first _ ih =>
    cases i with
    | zero => exact ⟨x, rfl, Option.some.inj found ▸ first⟩
    | succ i => exact ih found

namespace JumpsResolved

variable {around : Option LoopLabels} {s : Source.Stmt} {b : Stmt}

/-- It is enough that the parts resolve their jumps, with the labels of the loop if it is one. -/
theorem of_parts (noJump : s.isJump = false) (noGoto : b.isGoto = false)
    (loop : b.loop?.isSome = s.isLoop)
    (parts : List.Forall₂ (JumpsResolved (b.loop?.or around)) s.parts b.parts) :
    JumpsResolved around s b := by
  constructor
  · intro place keyword found
    cases place with
    | nil =>
      obtain rfl : s = .jump keyword := Option.some.inj found
      contradiction
    | cons i place =>
      obtain ⟨part, isPart, within⟩ := Option.bind_eq_some_iff.1 found
      obtain ⟨part', isPart', resolved⟩ := getElem?_of_forall₂ parts.flip isPart
      obtain ⟨jumps, loops⟩ := resolved.jumps place keyword within
      have toLoop : b.innermost? around (i :: place) =
          part'.innermost? (b.loop?.or around) place := by
        rw [Stmt.innermost?, isPart']
      have inLoop : s.inLoop (i :: place) = (s.isLoop || part.inLoop place) := by
        rw [Source.Stmt.inLoop, isPart, Option.any_some]
      refine ⟨?_, ?_⟩
      · rw [Stmt.at?, isPart', Option.bind_some, jumps, toLoop]
      · rw [toLoop, loops, inLoop, Option.isSome_or, loop, Bool.or_left_comm, Bool.or_assoc]
  · intro place target found
    cases place with
    | nil =>
      obtain rfl : b = .goto target := Option.some.inj found
      contradiction
    | cons i place =>
      obtain ⟨part', isPart', within⟩ := Option.bind_eq_some_iff.1 found
      obtain ⟨part, isPart, resolved⟩ := getElem?_of_forall₂ parts isPart'
      obtain ⟨keyword, isJump⟩ := resolved.gotos place target within
      exact ⟨keyword, by rw [Source.Stmt.at?, isPart, Option.bind_some, isJump]⟩

theorem jump (keyword : Source.Token) :
    JumpsResolved around (.jump keyword) (jumpTo keyword.kind around) := by
  have noParts : (jumpTo keyword.kind around).parts = [] := by cases around <;> rfl
  constructor
  · intro place keyword' found
    cases place with
    | nil =>
      obtain rfl : keyword = keyword' := by simpa [Source.Stmt.at?] using found
      exact ⟨rfl, (Bool.or_false _).symm⟩
    | cons i place => simp [Source.Stmt.at?, Source.Stmt.parts] at found
  · intro place target found
    cases place with
    | nil => exact ⟨keyword, rfl⟩
    | cons i place => simp [Stmt.at?, noParts] at found

end JumpsResolved

namespace Binding

variable {c : BindContext} {scope : Scope}

theorem jump_yields_jumpTo (keyword : Source.Token) :
    Yields (jump c keyword) fun b => b = jumpTo keyword.kind c.loops.head? := by
  unfold jump
  cases c.loops with
  | nil => exact .after fun _ => .pure rfl
  | cons labels loops => exact .pure rfl

mutual

theorem stmt_resolves {c : BindContext} {scope : Scope} (isGlobal : Bool) (s : Source.Stmt) :
    Yields (stmt c isGlobal scope s) fun r => JumpsResolved c.loops.head? s r.1 := by
  cases s with
  | block m body => exact (stmts_resolve body).bind fun r row => .pure (.of_parts rfl rfl rfl row)
  | declare m keyword name type source =>
    have whole : Yields (declaration c scope keyword name type source) fun r =>
        JumpsResolved c.loops.head? (.declare m keyword name type source) r.1 := by
      rw [declaration_eq]
      refine .after fun _ => .after fun _ => .after fun _ => .after fun _ => ?_
      exact .pure (.of_parts rfl rfl rfl .nil)
    exact whole
  | ifThen m condition t =>
    refine .after fun _ => (stmt_resolves false t).bind fun r inside => ?_
    exact .pure (.of_parts rfl rfl rfl (.cons inside .nil))
  | ifElse m condition t e =>
    refine .after fun _ => (stmt_resolves false t).bind fun r inside => ?_
    refine (stmt_resolves false e).bind fun r' inside' => ?_
    exact .pure (.of_parts rfl rfl rfl (.cons inside (.cons inside' .nil)))
  | whileDo m condition body =>
    refine .after fun _ => .after fun labels => (stmt_resolves false body).bind fun r inside => ?_
    exact .pure (.of_parts rfl rfl rfl (.cons inside .nil))
  | doWhile m body condition =>
    refine .after fun labels => (stmt_resolves false body).bind fun r inside => .after fun _ => ?_
    exact .pure (.of_parts rfl rfl rfl (.cons inside .nil))
  | forIn m name range body =>
    refine .after fun _ => .after fun _ => .after fun labels => ?_
    refine (stmt_resolves false body).bind fun r inside => ?_
    exact .pure (.of_parts rfl rfl rfl (.cons inside .nil))
  | jump keyword =>
    refine (jump_yields_jumpTo keyword).bind fun b isJump => .pure ?_
    rw [isJump]
    exact .jump keyword
  | ret m keyword value =>
    have isRet {bound : Option (TextRange × Expr)} : Yields (returnStmt c keyword bound)
        (JumpsResolved c.loops.head? (.ret m keyword value)) := by
      intro state
      obtain ⟨e, equal⟩ := (returnStmt_isRet fun _ => True).holds state
      rw [equal]
      exact .of_parts rfl rfl rfl .nil
    cases value with
    | none => exact isRet.bind fun b resolved => .pure resolved
    | some e => exact .after fun _ => isRet.bind fun b resolved => .pure resolved
  | expr m e =>
    refine .after fun bound => ?_
    dsimp only
    split
    · exact .after fun _ => .pure (.of_parts rfl rfl rfl .nil)
    · exact .pure (.of_parts rfl rfl rfl .nil)

theorem stmts_resolve {c : BindContext} {scope : Scope} (ss : List Source.Stmt) :
    Yields (stmts c scope ss) fun r => List.Forall₂ (JumpsResolved c.loops.head?) ss r.1 := by
  cases ss with
  | nil => exact .pure .nil
  | cons s ss =>
    refine (stmt_resolves false s).bind fun r first => ?_
    exact (stmts_resolve ss).bind fun r' rest => .pure (.cons first rest)

end

theorem BindsTo.resolved {isGlobal : Bool} {s : Source.Stmt} {b : Stmt}
    (bindsTo : BindsTo c isGlobal s b) : JumpsResolved c.loops.head? s b := by
  obtain ⟨scope, state, rfl⟩ := bindsTo
  exact stmt_resolves isGlobal s state

structure JumpsOf (c : BindContext) (isGlobal : Bool) (scope : Scope) (s : Source.Stmt)
    (state : BindState) : Prop where
  resolved : JumpsResolved c.loops.head? s (stmt c isGlobal scope s state).1.1
  /-- The stray jumps are those whose places are in no loop. -/
  strays : ∀ keyword, keyword ∈ s.strayJumps ↔
    ∃ place, s.at? place = some (.jump keyword) ∧ s.inLoop place = false
  /-- If there is no loop around the statement, each of them is reported once. -/
  reported : (stmt c isGlobal scope s state).2.strays = state.strays ++ strayReports c s.strayJumps
  /-- On a stack of the loops around it the statement gives the same, and leaves the stack as it
  was. -/
  restores : stmtOnStack c isGlobal scope s c.loops state =
    (((stmt c isGlobal scope s state).1, c.loops), (stmt c isGlobal scope s state).2)

structure FunctionJumps (c : BindContext) (scope : Scope) (fn : Fn) (f : Source.Function)
    (state : BindState) : Prop where
  resolved : List.Forall₂ (JumpsResolved c.loops.head?) f.body (functionBody c scope fn f state).1
  reported : (functionBody c scope fn f state).2.strays =
    state.strays ++ strayReports c (Source.Stmt.strayJumpsOf f.body)
  restores : functionBodyOnStack c scope fn f c.loops state =
    (((functionBody c scope fn f state).1, c.loops), (functionBody c scope fn f state).2)

/-- The jumps of a unit. None of its bodies sees a loop of another. -/
structure UnitJumps (scriptMode : Bool) (file : Option String) (history : List Declarations)
    (u : Source.Unit) (next : Nat) : Prop where
  /-- A body is bound from a declared function, or it belongs to the entry and is bound from the
  global statements. There is no loop around either. -/
  resolved : ∀ p ∈ (bindUnit scriptMode file history u next).1.bodies,
    (∃ f ∈ u.functions, MadeFrom f p.1 ∧ List.Forall₂ (JumpsResolved none) f.body p.2) ∨
      ((bindUnit scriptMode file history u next).1.declarations.entry = some p.1 ∧
        List.Forall₂ (JumpsResolved none) u.statements p.2)
  reported : (bindUnit scriptMode file history u next).1.declarations.diagnostics.items.filter
      Diagnostic.isStrayJump =
    (Source.Stmt.strayJumpsOf u.statements ++
        u.functions.flatMap (Source.Stmt.strayJumpsOf ·.body)).map (strayJump (file <|> u.file))
  restores : unitOnStack scriptMode file history u [] ⟨next, .empty⟩ =
    (((unit scriptMode file history u ⟨next, .empty⟩).1, []),
      (unit scriptMode file history u ⟨next, .empty⟩).2)

variable {scriptMode : Bool} {file : Option String} {history : List Declarations}
  {u : Source.Unit} {next : Nat}

theorem bindUnit_resolved {p : Fn × Body}
    (member : p ∈ (bindUnit scriptMode file history u next).1.bodies) :
    (∃ f ∈ u.functions, MadeFrom f p.1 ∧ List.Forall₂ (JumpsResolved none) f.body p.2) ∨
      ((bindUnit scriptMode file history u next).1.declarations.entry = some p.1 ∧
        List.Forall₂ (JumpsResolved none) u.statements p.2) := by
  rw [bindUnit_bodies] at member
  rcases mem_addEntry member with ofFn | ⟨e, isEntry, ofEntry, _⟩
  · obtain ⟨sources, made, _⟩ :
        (headsPass file history u next).1.1.map Prod.snd = u.functions ∧ _ ∧ _ := headsPass_makes
    obtain ⟨q, within, same, row⟩ := exists_of_forall₂ bodiesPass_areBodies ofFn
    have declared : q.2 ∈ u.functions := sources ▸ List.mem_map_of_mem within
    refine .inl ⟨q.2, declared, same ▸ made q within, ?_⟩
    exact row.imp fun _ _ bindsTo => bindsTo.resolved
  · have row : List.Forall₂ (BindsTo (unitContext scriptMode file u) true) u.statements
        (globalsPass scriptMode file history u next).1.1 := globals_bindTo u.statements _
    rw [ofEntry]
    exact .inr ⟨isEntry, row.imp fun _ _ bindsTo => bindsTo.resolved⟩

/-- `break` and `continue` reach the innermost loop, in every statement, function and unit. Outside
of all loops they do nothing and are reported. -/
theorem jumps_reach_innermost :
    (∀ c isGlobal scope s state, JumpsOf c isGlobal scope s state) ∧
      (∀ c scope fn f state, FunctionJumps c scope fn f state) ∧
      ∀ scriptMode file history u next, UnitJumps scriptMode file history u next := by
  refine ⟨?_, ?_, ?_⟩
  · intro c isGlobal scope s state
    have restores : stmtOnStack c isGlobal scope s c.loops = do
        return (← stmt c isGlobal scope s, c.loops) := stmtOnStack_restores isGlobal s
    exact ⟨stmt_resolves isGlobal s state, fun _ => Source.Stmt.mem_strayJumps_iff,
      stmt_strays isGlobal s state, congrFun restores state⟩
  · intro c scope fn f state
    have resolved : Yields (functionBody c scope fn f)
        (List.Forall₂ (JumpsResolved c.loops.head?) f.body) :=
      (stmts_resolve f.body).bind fun r row => .pure row
    have restores : functionBodyOnStack c scope fn f c.loops = do
        return (← functionBody c scope fn f, c.loops) := functionBodyOnStack_restores fn f
    exact ⟨resolved state, functionBody_strays fn f state, congrFun restores state⟩
  · intro scriptMode file history u next
    have restores : unitOnStack scriptMode file history u [] = do
        return (← unit scriptMode file history u, []) := unitOnStack_restores _ _ _ _
    exact ⟨fun _ member => bindUnit_resolved member, bindUnit_strays _ _ _ _ _,
      congrFun restores ⟨next, .empty⟩⟩

end Binding

end ScriptLang
