import ScriptLang.Proofs.RenamedLowering

/-! In print a label has a name for its place in the order of first appearance, and a variable or a
function has the name that it was declared with. So code under other numbers reads the same, and so
does its flow graph. -/

namespace ScriptLang

section

variable {f : Nat → Nat}

theorem eraseDups_map_of_injective (injective : Function.Injective f) (ids : List Nat) :
    (ids.map f).eraseDups = ids.eraseDups.map f := by
  induction h : ids.length using Nat.strongRecOn generalizing ids with
  | ind length ih =>
    cases ids with
    | nil => rfl
    | cons id ids =>
      have shorter : (ids.filter fun j => !j == id).length < length := by
        rw [← h]
        exact Nat.lt_succ_of_le (List.length_filter_le _ _)
      have others : (ids.map f).filter (fun j => !j == f id) =
          (ids.filter fun j => !j == id).map f := by
        rw [List.filter_map]
        refine congrArg (List.map f) (List.filter_congr fun j _ => ?_)
        simp [injective.eq_iff]
      rw [List.map_cons, List.eraseDups_cons, List.eraseDups_cons, List.map_cons, others,
        ih _ shorter _ rfl]

theorem idxOf_map_of_injective (injective : Function.Injective f) (id : Nat) (ids : List Nat) :
    (ids.map f).idxOf (f id) = ids.idxOf id := by
  induction ids with
  | nil => rfl
  | cons j ids ih =>
    have same : (f j == f id) = (j == id) := by
      rw [Bool.eq_iff_iff, beq_iff_eq, beq_iff_eq, injective.eq_iff]
    rw [List.map_cons, List.idxOf_cons, List.idxOf_cons, ih, same]

end

variable {ρ : Renaming}

namespace Expr

mutual

theorem textAt_rename (parent : Nat) (e : Expr) : (e.rename ρ).textAt parent = e.textAt parent := by
  cases e with
  | error | literal | var => rfl
  | assign v e => simp only [rename, textAt, textAt_rename, Var.name_rename]
  | unary op e => simp only [rename, textAt, textAt_rename]
  | binary l op r => simp only [rename, textAt, textAt_rename]
  | range l u => simp only [rename, textAt, textAt_rename]
  | call f args => simp only [rename, textAt, argTexts_rename, Fn.name_rename]
  | convert t e => simp only [rename, textAt, textAt_rename]

theorem argTexts_rename (es : List Expr) : argTexts (renameAll ρ es) = argTexts es := by
  cases es with
  | nil => rfl
  | cons e es => simp only [renameAll, argTexts, textAt_rename, argTexts_rename]

end

@[simp] theorem text_rename (e : Expr) : (e.rename ρ).text = e.text := textAt_rename 0 e

end Expr

namespace Stmt

mutual

theorem labels_rename (s : Stmt) : (s.rename ρ).labels = s.labels.map (Label.rename ρ) := by
  cases s with
  | block body => exact labelsOf_rename body
  | ifThen c t => exact labels_rename t
  | ifElse c t e => simp only [rename, labels, labels_rename t, labels_rename e, List.map_append]
  | whileDo c body l => simp only [rename, labels, labels_rename body, List.map_cons, LoopLabels.rename]
  | doWhile body c l => simp only [rename, labels, labels_rename body, List.map_cons, LoopLabels.rename]
  | forIn v range body l =>
    simp only [rename, labels, labels_rename body, List.map_cons, LoopLabels.rename]
  | _ => rfl

theorem labelsOf_rename (ss : List Stmt) :
    labelsOf (renameAll ρ ss) = (labelsOf ss).map (Label.rename ρ) := by
  cases ss with
  | nil => rfl
  | cons s ss => simp only [renameAll, labelsOf, labels_rename s, labelsOf_rename ss, List.map_append]

end

end Stmt

def LabelNames.Renamed (ρ : Renaming) (names names' : LabelNames) : Prop :=
  ∀ l : Label, names'.name (l.rename ρ) = names.name l

theorem LabelNames.ofBody_renamed (body : Body) :
    (ofBody body).Renamed ρ (ofBody (body.rename ρ)) := by
  have ids : (ofBody (body.rename ρ)).ids = (ofBody body).ids.map ρ.own := by
    unfold ofBody Body.rename
    rw [← Stmt.renameAll_eq_map, Stmt.labelsOf_rename, List.map_map,
      ← eraseDups_map_of_injective ρ.injective, List.map_map]
    rfl
  intro l
  rw [name, name, ids]
  show l.stem ++ toString (List.idxOf (ρ.own l.id) _ + 1) = _
  rw [idxOf_map_of_injective ρ.injective]

namespace Stmt

theorem nestedIndent_rename (indent : Nat) (s : Stmt) :
    nestedIndent indent (s.rename ρ) = nestedIndent indent s := by
  cases s <;> rfl

variable {names names' : LabelNames}

mutual

theorem lines_rename (renamed : names.Renamed ρ names') (indent : Nat) (s : Stmt) :
    (s.rename ρ).lines names' indent = s.lines names indent := by
  cases s with
  | block body => simp only [rename, lines, linesOf_rename renamed _ body]
  | declare v e =>
    simp only [rename, lines, Expr.text_rename]
    rfl
  | ifThen c t =>
    simp only [rename, lines, Expr.text_rename, nestedIndent_rename, lines_rename renamed _ t]
  | ifElse c t e =>
    simp only [rename, lines, Expr.text_rename, nestedIndent_rename, lines_rename renamed _ t,
      lines_rename renamed _ e]
  | whileDo c body l =>
    simp only [rename, lines, Expr.text_rename, nestedIndent_rename, lines_rename renamed _ body]
  | doWhile body c l =>
    simp only [rename, lines, Expr.text_rename, nestedIndent_rename, lines_rename renamed _ body]
  | forIn v range body l =>
    simp only [rename, lines, Expr.text_rename, Var.name_rename, nestedIndent_rename,
      lines_rename renamed _ body]
  | label l | goto l => simp only [rename, lines, renamed l]
  | gotoIf l c value => simp only [rename, lines, renamed l, Expr.text_rename]
  | ret value => cases value <;> simp only [rename, lines, Option.map_none, Option.map_some,
      Expr.text_rename]
  | expr e => simp only [rename, lines, Expr.text_rename]

theorem linesOf_rename (renamed : names.Renamed ρ names') (indent : Nat) (ss : List Stmt) :
    linesOf names' indent (renameAll ρ ss) = linesOf names indent ss := by
  cases ss with
  | nil => rfl
  | cons s ss =>
    simp only [renameAll, linesOf, lines_rename renamed _ s, linesOf_rename renamed _ ss]

end

end Stmt

theorem Body.text_rename (body : Body) : (body.rename ρ).text = body.text := by
  unfold text
  have lines : Stmt.linesOf (.ofBody (body.rename ρ)) 1 (Stmt.renameAll ρ body) = _ :=
    Stmt.linesOf_rename (LabelNames.ofBody_renamed body) 1 body
  rw [Stmt.renameAll_eq_map] at lines
  exact congrArg String.join lines

namespace FlowGraph

theorem edgeText_rename (e : Edge) : edgeText (e.rename ρ) = edgeText e := by
  unfold edgeText Edge.rename
  cases e.condition with
  | none => rfl
  | some p => simp only [Option.map_some, Expr.text_rename]

theorem blockText_rename {names names' : LabelNames} (renamed : names.Renamed ρ names') (b : Block) :
    blockText names' (b.rename ρ) = blockText names b := by
  have statements : (b.statements.map (Stmt.rename ρ)).map (Stmt.text names') =
      b.statements.map (Stmt.text names) := by
    rw [List.map_map]
    refine List.map_congr_left fun s _ => ?_
    exact congrArg String.join (Stmt.lines_rename renamed 0 s)
  unfold blockText Block.rename
  dsimp only
  rw [statements]

theorem dot_rename {names names' : LabelNames} (renamed : names.Renamed ρ names') (g : FlowGraph) :
    (g.rename ρ).dot names' = g.dot names := by
  unfold dot
  dsimp only [FlowGraph.rename]
  rw [List.map_map, List.map_map]
  simp only [Function.comp_def, blockText_rename renamed, edgeText_rename]
  rfl

end FlowGraph

theorem Body.dot_rename (body : Body) : (body.rename ρ).dot = body.dot := by
  unfold dot
  rw [FlowGraph.ofBody_rename]
  exact FlowGraph.dot_rename (LabelNames.ofBody_renamed body) _

end ScriptLang
