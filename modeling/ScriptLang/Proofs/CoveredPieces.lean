import ScriptLang.Source.Sketch

/-! A node stores expressions and statements, and names, tokens, type clauses and parameters. The leaves
that belong to a node itself are written behind the expressions and statements inside of it, so a
range that reaches from one of these to the other covers all pieces, and one that spans some of them
leaves out what is written behind or in front of those. Which pieces a node leaves out depends on
its form alone. -/

namespace ScriptLang.Source

/-- What a piece is to the node that stores it. An inner piece is an expression, a statement or a
member. The expression that a `for` loop runs over is told apart from its body. -/
inductive Role where
  | name | operator | keyword | type | parameter | range | inner
  deriving DecidableEq, Repr

inductive Composite where
  | expr (e : Expr)
  | stmt (s : Stmt)
  | clause (t : TypeClause)
  | parameter (p : Parameter)
  | function (f : Function)
  | global (mark : Mark) (s : Stmt)
  | unit (u : Unit)

def Member.textRange : Member → TextRange
  | .function f => f.mark.range
  | .statement m _ => m.range

abbrev Pieces := List (Role × TextRange)

def typePieces (type : Option TypeClause) : Pieces :=
  (type.map fun t => (.type, t.mark.range)).toList

def Expr.pieces : Expr → Pieces
  | .literal _ _ => []
  | .name _ n => [(.name, n.mark.range)]
  | .assign _ target op value =>
    [(.name, target.mark.range), (.operator, op.mark.range), (.inner, value.textRange)]
  | .unary _ op e => [(.operator, op.mark.range), (.inner, e.textRange)]
  | .binary _ l op r =>
    [(.inner, l.textRange), (.operator, op.mark.range), (.inner, r.textRange)]
  | .range _ l u => [(.inner, l.textRange), (.inner, u.textRange)]
  | .paren _ e => [(.inner, e.textRange)]
  | .call _ callee args =>
    (.name, callee.mark.range) :: args.map fun e => (.inner, e.textRange)

def Stmt.pieces : Stmt → Pieces
  | .block _ body => body.map fun s => (.inner, s.textRange)
  | .declare _ keyword name type value =>
    (.keyword, keyword.mark.range) :: (.name, name.mark.range) :: (.inner, value.textRange) ::
      typePieces type
  | .ifThen _ c t => [(.inner, c.textRange), (.inner, t.textRange)]
  | .ifElse _ c t e => [(.inner, c.textRange), (.inner, t.textRange), (.inner, e.textRange)]
  | .whileDo _ c body => [(.inner, c.textRange), (.inner, body.textRange)]
  | .doWhile _ body c => [(.inner, body.textRange), (.inner, c.textRange)]
  | .forIn _ name range body =>
    [(.name, name.mark.range), (.range, range.textRange), (.inner, body.textRange)]
  | .jump _ => []
  | .ret _ keyword none => [(.keyword, keyword)]
  | .ret _ keyword (some e) => [(.keyword, keyword), (.inner, e.textRange)]
  | .expr _ e => [(.inner, e.textRange)]

namespace Composite

def range : Composite → TextRange
  | expr e => e.textRange
  | stmt s => s.textRange
  | clause t => t.mark.range
  | parameter p => p.mark.range
  | function f => f.mark.range
  | global m _ => m.range
  | unit u => u.mark.range

/-- Everything that a node stores, with the range of each piece. -/
def pieces : Composite → Pieces
  | expr e => e.pieces
  | stmt s => s.pieces
  | clause t => [(.name, t.name.mark.range)]
  | parameter p => [(.name, p.name.mark.range), (.type, p.type.mark.range)]
  | function f =>
    (.name, f.name.mark.range) :: (.inner, f.bodyMark.range) ::
      (f.parameters.map fun p => (.parameter, p.mark.range)) ++ typePieces f.returns
  | global _ s => [(.inner, s.textRange)]
  | unit u => u.members.map fun m => (.inner, m.textRange)

/-- The pieces that the range of a node does not reach: the operator of an assignment and of a
binary expression, the name and the type in a declaration, what a `for` loop runs over, and the
parameters and the result type of a function with statements. -/
def leavesOut : Composite → Role → Bool
  | expr (.assign _ _ _ _), .operator | expr (.binary _ _ _ _), .operator => true
  | stmt (.declare _ _ _ _ _), .name | stmt (.declare _ _ _ _ _), .type => true
  | stmt (.forIn _ _ _ _), .range => true
  | function f, .parameter | function f, .type => !f.body.isEmpty
  | _, _ => false

def Sits (n : Composite) (piece : Role × TextRange) : Prop :=
  n.range.Contains piece.2 ↔ n.leavesOut piece.1 = false

/-- The range of the node holds exactly those of its pieces that it does not leave out. -/
def Fits (n : Composite) : Prop := ∀ piece ∈ n.pieces, n.Sits piece

section Sitting

variable {n : Composite} {role role' left : Role} {r r' missed : TextRange}

theorem Sits.inside (contains : n.range.Contains r) (kept : n.leavesOut role = false) :
    n.Sits (role, r) :=
  iff_of_true contains kept

theorem Sits.outside (missing : ¬ n.range.Contains r) (leaves : n.leavesOut role = true) :
    n.Sits (role, r) :=
  iff_of_false missing (ne_false_of_eq_true leaves)

/-- A node that stands where its only piece stands. -/
theorem fits_single (piece : n.pieces = [(role, r)]) (same : n.range = r)
    (kept : n.leavesOut role = false) : n.Fits := by
  simp only [Fits, piece, List.forall_mem_singleton]
  exact .inside (same ▸ TextRange.Contains.refl r) kept

/-- A node that covers both of its pieces. -/
theorem fits_pair (both : n.pieces = [(role, r), (role', r')]) (cover : n.range = r.cover r')
    (kept : n.leavesOut role = false) (kept' : n.leavesOut role' = false) : n.Fits := by
  simp only [Fits, both, List.forall_mem_cons]
  refine ⟨.inside ?_ kept, .inside ?_ kept', List.forall_mem_nil _⟩
  · exact cover ▸ TextRange.cover_contains_left r r'
  · exact cover ▸ TextRange.cover_contains_right r r'

/-- A node that covers two of its pieces and misses the one that stands between them in the list. -/
theorem fits_outer (three : n.pieces = [(role, r), (left, missed), (role', r')])
    (cover : n.range = r.cover r') (missing : ¬ (r.cover r').Contains missed)
    (kept : n.leavesOut role = false) (leaves : n.leavesOut left = true)
    (kept' : n.leavesOut role' = false) : n.Fits := by
  simp only [Fits, three, List.forall_mem_cons]
  refine ⟨.inside ?_ kept, .outside (cover ▸ missing) leaves, .inside ?_ kept',
    List.forall_mem_nil _⟩
  · exact cover ▸ TextRange.cover_contains_left r r'
  · exact cover ▸ TextRange.cover_contains_right r r'

end Sitting

end Composite

mutual

def Expr.composites : Expr → List Composite
  | .literal m v => [.expr (.literal m v)]
  | .name m n => [.expr (.name m n)]
  | .assign m target op value => .expr (.assign m target op value) :: value.composites
  | .unary m op e => .expr (.unary m op e) :: e.composites
  | .binary m l op r => .expr (.binary m l op r) :: (l.composites ++ r.composites)
  | .range m l u => .expr (.range m l u) :: (l.composites ++ u.composites)
  | .paren m e => .expr (.paren m e) :: e.composites
  | .call m callee args => .expr (.call m callee args) :: exprComposites args

def exprComposites : List Expr → List Composite
  | [] => []
  | e :: es => e.composites ++ exprComposites es

end

def typeComposites (type : Option TypeClause) : List Composite := (type.map .clause).toList

mutual

def Stmt.composites : Stmt → List Composite
  | .block m body => .stmt (.block m body) :: stmtComposites body
  | .declare m keyword name type value =>
    .stmt (.declare m keyword name type value) :: (value.composites ++ typeComposites type)
  | .ifThen m c t => .stmt (.ifThen m c t) :: (c.composites ++ t.composites)
  | .ifElse m c t e => .stmt (.ifElse m c t e) :: (c.composites ++ (t.composites ++ e.composites))
  | .whileDo m c body => .stmt (.whileDo m c body) :: (c.composites ++ body.composites)
  | .doWhile m body c => .stmt (.doWhile m body c) :: (body.composites ++ c.composites)
  | .forIn m name range body =>
    .stmt (.forIn m name range body) :: (range.composites ++ body.composites)
  | .jump t => [.stmt (.jump t)]
  | .ret m keyword none => [.stmt (.ret m keyword none)]
  | .ret m keyword (some e) => .stmt (.ret m keyword (some e)) :: e.composites
  | .expr m e => .stmt (.expr m e) :: e.composites

def stmtComposites : List Stmt → List Composite
  | [] => []
  | s :: ss => s.composites ++ stmtComposites ss

end

def Parameter.composites (p : Parameter) : List Composite := [.parameter p, .clause p.type]

def Function.composites (f : Function) : List Composite :=
  .function f :: (f.parameters.flatMap Parameter.composites ++ (typeComposites f.returns ++
    .stmt (.block f.bodyMark f.body) :: stmtComposites f.body))

def Member.composites : Member → List Composite
  | .function f => f.composites
  | .statement m s => .global m s :: s.composites

def Unit.composites (u : Unit) : List Composite := .unit u :: u.members.flatMap Member.composites

/-- A stretch between two offsets, with the column that divides it from the next. -/
structure Within (low high : Nat) (r : TextRange) : Prop where
  start : low ≤ r.pos
  proper : r.pos < r.stop
  stop : r.stop < high

section Stretches

variable {low middle low' high high' : Nat} {a b r : TextRange}

theorem Within.le (within : Within low high r) : low ≤ high := by
  have := within.start
  have := within.proper
  have := within.stop
  omega

theorem Within.mono (within : Within low high r) (front : low' ≤ low) (back : high ≤ high') :
    Within low' high' r :=
  ⟨Nat.le_trans front within.start, within.proper, Nat.lt_of_lt_of_le within.stop back⟩

theorem Within.cover (first : Within low high a) (second : Within low high b) :
    Within low high (a.cover b) where
  start := Nat.le_min.2 ⟨first.start, second.start⟩
  proper := by
    have := first.proper
    simp only [TextRange.cover]
    omega
  stop := Nat.max_lt.2 ⟨first.stop, second.stop⟩

/-- The cover of two stretches, whichever of them is written first. -/
theorem Within.join (first : Within low middle a) (second : Within middle high b) :
    Within low high (a.cover b) ∧ Within low high (b.cover a) := by
  have front := first.mono (Nat.le_refl low) second.le
  have back := second.mono first.le (Nat.le_refl high)
  exact ⟨front.cover back, back.cover front⟩

/-- The cover of two stretches holds what is written between them. -/
theorem Within.cover_contains_between {back : Nat} (first : Within low middle a)
    (between : Within middle back r) (last : Within back high b) : (a.cover b).Contains r := by
  have := first.proper
  have := first.stop
  have := between.start
  have := between.stop
  have := last.start
  have := last.proper
  simp only [TextRange.Contains, TextRange.cover]
  omega

/-- What is written behind a stretch is not inside of it. -/
theorem Within.not_contains_behind (earlier : Within low middle a) (later : Within middle high b) :
    ¬ a.Contains b := by
  intro contains
  have := contains.2
  have := earlier.stop
  have := later.start
  have := later.proper
  omega

theorem Within.not_contains_before (earlier : Within low middle b) (later : Within middle high a) :
    ¬ a.Contains b := by
  intro contains
  have := contains.1
  have := earlier.stop
  have := earlier.proper
  have := later.start
  omega

end Stretches

/-- What is written between two offsets: one stretch, and nodes that all fit. -/
structure Placed (low high : Nat) (r : TextRange) (nodes : List Composite) : Prop where
  within : Within low high r
  fits : ∀ n ∈ nodes, n.Fits

theorem Placed.node {low high : Nat} {n : Composite} {nodes : List Composite}
    (within : Within low high n.range) (fits : n.Fits) (inner : ∀ m ∈ nodes, m.Fits) :
    Placed low high n.range (n :: nodes) :=
  ⟨within, List.forall_mem_cons.2 ⟨fits, inner⟩⟩

theorem Placed.single {low high : Nat} {n : Composite} (within : Within low high n.range)
    (fits : n.Fits) : Placed low high n.range [n] :=
  .node within fits (List.forall_mem_nil _)

inductive Row {α : Type} (range : α → TextRange) (nodes : α → List Composite) :
    Nat → Nat → List α → Prop where
  | nil (low : Nat) : Row range nodes low low []
  | cons {low middle high : Nat} {a : α} {row : List α} :
    Placed low middle (range a) (nodes a) → Row range nodes middle high row →
      Row range nodes low high (a :: row)

section Rows

variable {α : Type} {range : α → TextRange} {nodes : α → List Composite} {low high : Nat}
  {row : List α} {a : α}

theorem Row.le (h : Row range nodes low high row) : low ≤ high := by
  induction h with
  | nil => exact Nat.le_refl _
  | cons first _ ih => exact Nat.le_trans first.within.le ih

theorem Row.within (h : Row range nodes low high row) (member : a ∈ row) :
    Within low high (range a) := by
  induction h with
  | nil => simp at member
  | cons first rest ih =>
    obtain rfl | member := List.mem_cons.1 member
    · exact first.within.mono (Nat.le_refl _) rest.le
    · exact (ih member).mono first.within.le (Nat.le_refl _)

theorem Row.fits (h : Row range nodes low high row) (member : a ∈ row) :
    ∀ n ∈ nodes a, n.Fits := by
  induction h with
  | nil => simp at member
  | cons first _ ih =>
    obtain rfl | member := List.mem_cons.1 member
    · exact first.fits
    · exact ih member

theorem Row.fits_flatMap (h : Row range nodes low high row) : ∀ n ∈ row.flatMap nodes, n.Fits := by
  intro n inside
  obtain ⟨a, member, inside⟩ := List.mem_flatMap.1 inside
  exact h.fits member n inside

/-- Nothing of a row starts in front of its first member. -/
theorem Row.head_pos_le {first : α} (h : Row range nodes low high (first :: row))
    (member : a ∈ first :: row) : (range first).pos ≤ (range a).pos := by
  obtain - | ⟨head, rest⟩ := h
  obtain rfl | member := List.mem_cons.1 member
  · exact Nat.le_refl _
  · have := head.within.proper
    have := head.within.stop
    have := (rest.within member).start
    omega

/-- Nothing of a row ends behind its last member. -/
theorem Row.stop_le_getLast (h : Row range nodes low high row) (filled : row ≠ [])
    (member : a ∈ row) : (range a).stop ≤ (range (row.getLast filled)).stop := by
  induction h with
  | nil => simp at member
  | @cons _ _ _ first row head rest ih =>
    by_cases single : row = []
    · subst single
      simp_all
    · rw [List.getLast_cons single]
      obtain rfl | member := List.mem_cons.1 member
      · have last := rest.within (List.getLast_mem single)
        have := head.within.stop
        have := last.start
        have := last.proper
        omega
      · exact ih single member

end Rows

/-- The cover of the first and the last statement of a row holds all of them. -/
theorem Row.covered {low high : Nat} {body : List Stmt} {whole : TextRange}
    (h : Row Stmt.textRange Stmt.composites low high body) (covers : coverAll? body = some whole) :
    Within low high whole ∧ ∀ s ∈ body, whole.Contains s.textRange := by
  cases body with
  | nil => simp [coverAll?] at covers
  | cons first rest =>
    obtain rfl := Option.some.inj covers
    constructor
    · exact (h.within (List.mem_cons_self ..)).cover (h.within (List.getLast_mem _))
    · intro s member
      have := h.head_pos_le member
      have := h.stop_le_getLast (List.cons_ne_nil first rest) member
      simp only [TextRange.Contains, TextRange.cover]
      omega

def Place.Writes {α : Type} (p : Place α) (c : Cursor) (post : α → Nat → Prop) : Prop :=
  post (p c).1 (p c).2.pos

namespace Place

variable {α β : Type} {c : Cursor} {post : α → Nat → Prop}

theorem Writes.bind {p : Place β} {f : β → Place α} {first : β → Nat → Prop}
    (h : p.Writes c first) (next : ∀ b (c' : Cursor), first b c'.pos → (f b).Writes c' post) :
    Place.Writes (p >>= f) c post :=
  next _ _ h

theorem writes_pure {a : α} (h : post a c.pos) : Place.Writes (pure a) c post := h

/-- A mark takes a number and no column. -/
theorem writes_mark {r : TextRange} {f : Mark → α} (h : ∀ id : Nat, post (f ⟨r, id⟩) c.pos) :
    Place.Writes (do return f (← mark r)) c post :=
  h c.id

theorem writes_leafRange (width : Nat) (c : Cursor) :
    (leafRange width).Writes c fun r high => Within c.pos high r := by
  have positive : 0 < max width 1 := Nat.lt_of_lt_of_le Nat.one_pos (Nat.le_max_right ..)
  exact ⟨Nat.le_refl _, Nat.lt_add_of_pos_right positive, Nat.lt_succ_self _⟩

theorem writes_leaf (width : Nat) (c : Cursor) :
    (leaf width).Writes c fun m high => Within c.pos high m.range :=
  (writes_leafRange width c).bind fun _ _ within => within

theorem writes_token (kind : Kind) (c : Cursor) :
    (token kind).Writes c fun t high => Within c.pos high t.mark.range :=
  (writes_leaf _ c).bind fun _ _ within => within

theorem writes_name (text : String) (c : Cursor) :
    (name text).Writes c fun n high => Within c.pos high n.mark.range :=
  (writes_leaf _ c).bind fun _ _ within => within

theorem writes_typeClause (text : String) (c : Cursor) :
    (typeClause text).Writes c fun t high => Placed c.pos high t.mark.range [.clause t] := by
  refine (writes_name text c).bind fun name c' within => writes_mark fun id => ?_
  exact .single (n := .clause _) within (Composite.fits_single rfl rfl rfl)

/-- What a type clause that may be missing leaves behind. -/
theorem writes_typeClause? (text : Option String) (c : Cursor) :
    (text.mapM typeClause).Writes c fun type high =>
      c.pos ≤ high ∧ ∀ t ∈ type, Placed c.pos high t.mark.range [.clause t] := by
  cases text with
  | none => exact writes_pure ⟨Nat.le_refl _, by simp⟩
  | some text =>
    refine (writes_typeClause text c).bind fun t c' placed => writes_pure ?_
    refine ⟨placed.within.le, ?_⟩
    rintro _ ⟨⟩
    exact placed

end Place

/-- What a call covers: its name and all of its arguments. -/
theorem foldl_cover_contains (args : List Expr) (r : TextRange) :
    let whole := args.foldl (fun r a => r.cover a.textRange) r
    whole.Contains r ∧ ∀ a ∈ args, whole.Contains a.textRange := by
  induction args generalizing r with
  | nil => exact ⟨TextRange.Contains.refl r, List.forall_mem_nil _⟩
  | cons a args ih =>
    obtain ⟨front, rest⟩ := ih (r.cover a.textRange)
    refine ⟨front.trans (TextRange.cover_contains_left ..), List.forall_mem_cons.2 ⟨?_, rest⟩⟩
    exact front.trans (TextRange.cover_contains_right ..)

theorem Within.foldl_cover {low high : Nat} {args : List Expr} {r : TextRange}
    (start : Within low high r) (inner : ∀ a ∈ args, Within low high a.textRange) :
    Within low high (args.foldl (fun r a => r.cover a.textRange) r) := by
  induction args generalizing r with
  | nil => exact start
  | cons a args ih =>
    obtain ⟨first, rest⟩ := List.forall_mem_cons.1 inner
    exact ih (start.cover first) rest

theorem exprComposites_eq (es : List Expr) : exprComposites es = es.flatMap Expr.composites := by
  induction es with
  | nil => simp [exprComposites]
  | cons e es ih => simp [exprComposites, ih]

open Place

-- By recursion along `place`: each part starts where the one before it has left the cursor, and a
-- case compares the stretch that the node covers with where its other leaves stand.
mutual

theorem Sketch.Expr.place_fits (e : Sketch.Expr) (c : Cursor) :
    e.place.Writes c fun e high => Placed c.pos high e.textRange e.composites := by
  match e with
  | .literal v =>
    refine (writes_leaf _ c).bind fun m c₁ within => writes_pure ?_
    exact .single (n := .expr _) within (List.forall_mem_nil _)
  | .name n =>
    refine (writes_name n c).bind fun name c₁ within => writes_mark fun id => ?_
    exact .single (n := .expr _) within (Composite.fits_single rfl rfl rfl)
  | .assign target op value =>
    refine (value.place_fits c).bind fun value c₁ hv => ?_
    refine (writes_name target c₁).bind fun target c₂ ht => ?_
    refine (writes_token op c₂).bind fun op c₃ ho => writes_mark fun id => ?_
    have whole := (hv.within.join ht).2
    have missing := whole.not_contains_behind ho
    exact .node (n := .expr _) (whole.mono (Nat.le_refl _) ho.le)
      (Composite.fits_outer rfl rfl missing rfl rfl rfl) hv.fits
  | .unary op operand =>
    refine (operand.place_fits c).bind fun operand c₁ he => ?_
    refine (writes_token op c₁).bind fun op c₂ ho => writes_mark fun id => ?_
    exact .node (n := .expr _) (he.within.join ho).2 (Composite.fits_pair rfl rfl rfl rfl) he.fits
  | .binary left op right =>
    refine (left.place_fits c).bind fun left c₁ hl => ?_
    refine (right.place_fits c₁).bind fun right c₂ hr => ?_
    refine (writes_token op c₂).bind fun op c₃ ho => writes_mark fun id => ?_
    have whole := (hl.within.join hr.within).1
    have missing := whole.not_contains_behind ho
    exact .node (n := .expr _) (whole.mono (Nat.le_refl _) ho.le)
      (Composite.fits_outer rfl rfl missing rfl rfl rfl)
      (List.forall_mem_append.2 ⟨hl.fits, hr.fits⟩)
  | .range lower upper =>
    refine (lower.place_fits c).bind fun lower c₁ hl => ?_
    refine (upper.place_fits c₁).bind fun upper c₂ hu => writes_mark fun id => ?_
    exact .node (n := .expr _) (hl.within.join hu.within).1 (Composite.fits_pair rfl rfl rfl rfl)
      (List.forall_mem_append.2 ⟨hl.fits, hu.fits⟩)
  | .paren inner =>
    refine (inner.place_fits c).bind fun inner c₁ hi => writes_mark fun id => ?_
    exact .node (n := .expr _) hi.within (Composite.fits_single rfl rfl rfl) hi.fits
  | .call callee args =>
    refine (placeExprs_fits args c).bind fun args c₁ ha => ?_
    refine (writes_name callee c₁).bind fun callee c₂ hc => writes_mark fun id => ?_
    have start := hc.mono ha.le (Nat.le_refl _)
    have inner := fun a member => (ha.within (a := a) member).mono (Nat.le_refl _) hc.le
    obtain ⟨front, rest⟩ := foldl_cover_contains args callee.mark.range
    refine .node (n := .expr _) (start.foldl_cover inner) ?_ ?_
    · simp only [Composite.Fits, Composite.pieces, Expr.pieces, List.forall_mem_cons,
        List.forall_mem_map]
      exact ⟨.inside front rfl, fun a member => .inside (rest a member) rfl⟩
    · exact exprComposites_eq args ▸ ha.fits_flatMap

theorem Sketch.placeExprs_fits (es : List Sketch.Expr) (c : Cursor) :
    (Sketch.placeExprs es).Writes c fun es high =>
      Row Expr.textRange Expr.composites c.pos high es := by
  match es with
  | [] => exact .nil _
  | e :: es =>
    refine (e.place_fits c).bind fun e c₁ he => ?_
    refine (placeExprs_fits es c₁).bind fun es c₂ hes => ?_
    exact .cons he hes

end

theorem forall_typePieces {type : Option TypeClause} {P : Role × TextRange → Prop} :
    (∀ piece ∈ typePieces type, P piece) ↔ ∀ t ∈ type, P (.type, t.mark.range) := by
  simp [typePieces]

theorem fits_typeComposites {type : Option TypeClause}
    (fits : ∀ t ∈ type, ∀ n ∈ [Composite.clause t], n.Fits) :
    ∀ n ∈ typeComposites type, n.Fits := by
  simpa [typeComposites] using fits

theorem stmtComposites_eq (ss : List Stmt) : stmtComposites ss = ss.flatMap Stmt.composites := by
  induction ss with
  | nil => simp [stmtComposites]
  | cons s ss ih => simp [stmtComposites, ih]

/-- A block stands where its statements stand. One without statements is written behind everything
before it. -/
theorem Place.writes_blockMark {low high : Nat} {body : List Stmt} {c : Cursor}
    (row : Row Stmt.textRange Stmt.composites low high body) :
    (Place.blockMark body).Writes c fun m stop =>
      Composite.Fits (.stmt (.block m body)) ∧
        (body.isEmpty = true ∧ Within c.pos stop m.range ∨
          body.isEmpty = false ∧ Within low high m.range ∧ stop = c.pos) := by
  cases covers : coverAll? body with
  | none =>
    cases body with
    | nil => exact ⟨List.forall_mem_nil _, .inl ⟨rfl, writes_leaf 2 c⟩⟩
    | cons => simp [coverAll?] at covers
  | some whole =>
    obtain ⟨within, inner⟩ := row.covered covers
    have filled : body.isEmpty = false := by
      cases body with
      | nil => simp [coverAll?] at covers
      | cons => rfl
    simp only [Place.blockMark, covers]
    refine ⟨?_, .inr ⟨filled, within, rfl⟩⟩
    simp only [Composite.Fits, Composite.pieces, Stmt.pieces, List.forall_mem_map]
    exact fun s member => .inside (inner s member) rfl

mutual

theorem Sketch.Stmt.place_fits (s : Sketch.Stmt) (c : Cursor) :
    s.place.Writes c fun s high => Placed c.pos high s.textRange s.composites := by
  match s with
  | .block body =>
    refine (placeStmts_fits body c).bind fun body c₁ row => ?_
    refine (writes_blockMark row).bind fun m c₂ ⟨fits, place⟩ => writes_pure ?_
    refine .node (n := .stmt _) ?_ fits (stmtComposites_eq body ▸ row.fits_flatMap)
    obtain ⟨-, within⟩ | ⟨-, within, stop⟩ := place
    · exact within.mono row.le (Nat.le_refl _)
    · exact within.mono (Nat.le_refl _) (Nat.le_of_eq stop.symm)
  | .declare keyword name type value =>
    refine (value.place_fits c).bind fun value c₁ hv => ?_
    refine (writes_token keyword c₁).bind fun keyword c₂ hk => ?_
    refine (writes_name name c₂).bind fun name c₃ hn => ?_
    refine (writes_typeClause? type c₃).bind fun type c₄ ⟨le, ht⟩ => writes_mark fun id => ?_
    have whole := (hv.within.join hk).2
    refine .node (n := .stmt _) (whole.mono (Nat.le_refl _) (Nat.le_trans hn.le le)) ?_ ?_
    · simp only [Composite.Fits, Composite.pieces, Stmt.pieces, List.forall_mem_cons,
        forall_typePieces]
      refine ⟨.inside (TextRange.cover_contains_left ..) rfl,
        .outside (whole.not_contains_behind hn) rfl,
        .inside (TextRange.cover_contains_right ..) rfl, fun t member => .outside ?_ rfl⟩
      exact whole.not_contains_behind ((ht t member).within.mono hn.le (Nat.le_refl _))
    · have clause := fits_typeComposites fun t member => (ht t member).fits
      exact List.forall_mem_append.2 ⟨hv.fits, clause⟩
  | .ifThen cond t =>
    refine (cond.place_fits c).bind fun cond c₁ hc => ?_
    refine (t.place_fits c₁).bind fun t c₂ ht => writes_mark fun id => ?_
    exact .node (n := .stmt _) (hc.within.join ht.within).1 (Composite.fits_pair rfl rfl rfl rfl)
      (List.forall_mem_append.2 ⟨hc.fits, ht.fits⟩)
  | .ifElse cond t e =>
    refine (cond.place_fits c).bind fun cond c₁ hc => ?_
    refine (t.place_fits c₁).bind fun t c₂ ht => ?_
    refine (e.place_fits c₂).bind fun e c₃ he => writes_mark fun id => ?_
    have whole := (hc.within.mono (Nat.le_refl _) ht.within.le).join he.within
    have inner := List.forall_mem_append.2 ⟨ht.fits, he.fits⟩
    refine .node (n := .stmt _) whole.1 ?_ (List.forall_mem_append.2 ⟨hc.fits, inner⟩)
    simp only [Composite.Fits, Composite.pieces, Stmt.pieces, List.forall_mem_cons]
    exact ⟨.inside (TextRange.cover_contains_left ..) rfl,
      .inside (hc.within.cover_contains_between ht.within he.within) rfl,
      .inside (TextRange.cover_contains_right ..) rfl, List.forall_mem_nil _⟩
  | .whileDo cond body =>
    refine (cond.place_fits c).bind fun cond c₁ hc => ?_
    refine (body.place_fits c₁).bind fun body c₂ hb => writes_mark fun id => ?_
    exact .node (n := .stmt _) (hc.within.join hb.within).1 (Composite.fits_pair rfl rfl rfl rfl)
      (List.forall_mem_append.2 ⟨hc.fits, hb.fits⟩)
  | .doWhile body cond =>
    refine (body.place_fits c).bind fun body c₁ hb => ?_
    refine (cond.place_fits c₁).bind fun cond c₂ hc => writes_mark fun id => ?_
    exact .node (n := .stmt _) (hb.within.join hc.within).1 (Composite.fits_pair rfl rfl rfl rfl)
      (List.forall_mem_append.2 ⟨hb.fits, hc.fits⟩)
  | .forIn name range body =>
    refine (range.place_fits c).bind fun range c₁ hr => ?_
    refine (body.place_fits c₁).bind fun body c₂ hb => ?_
    refine (writes_name name c₂).bind fun name c₃ hn => writes_mark fun id => ?_
    -- The name and the body stand next to each other, and what the loop runs over is in front.
    have whole := (hb.within.join hn).2
    have missing := hr.within.not_contains_before whole
    exact .node (n := .stmt _) (whole.mono hr.within.le (Nat.le_refl _))
      (Composite.fits_outer rfl rfl missing rfl rfl rfl)
      (List.forall_mem_append.2 ⟨hr.fits, hb.fits⟩)
  | .breakLoop | .continueLoop =>
    refine (writes_token _ c).bind fun t c₁ within => writes_pure ?_
    exact .single (n := .stmt _) within (List.forall_mem_nil _)
  | .ret none =>
    refine (writes_leafRange 6 c).bind fun keyword c₁ within => writes_mark fun id => ?_
    exact .single (n := .stmt _) within (Composite.fits_single rfl rfl rfl)
  | .ret (some e) =>
    refine (e.place_fits c).bind fun e c₁ he => ?_
    refine (writes_leafRange 6 c₁).bind fun keyword c₂ hk => writes_mark fun id => ?_
    exact .node (n := .stmt _) (he.within.join hk).2 (Composite.fits_pair rfl rfl rfl rfl) he.fits
  | .expr e =>
    refine (e.place_fits c).bind fun e c₁ he => writes_mark fun id => ?_
    exact .node (n := .stmt _) he.within (Composite.fits_single rfl rfl rfl) he.fits

theorem Sketch.placeStmts_fits (ss : List Sketch.Stmt) (c : Cursor) :
    (Sketch.placeStmts ss).Writes c fun ss high =>
      Row Stmt.textRange Stmt.composites c.pos high ss := by
  match ss with
  | [] => exact .nil _
  | s :: ss =>
    refine (s.place_fits c).bind fun s c₁ hs => ?_
    refine (placeStmts_fits ss c₁).bind fun ss c₂ hss => ?_
    exact .cons hs hss

end

/-- Things that are placed one behind the other stand in a row. -/
theorem Place.writes_mapM {α β : Type} {range : β → TextRange} {nodes : β → List Composite}
    {p : α → Place β}
    (each : ∀ a c, (p a).Writes c fun b high => Placed c.pos high (range b) (nodes b))
    (row : List α) (c : Cursor) :
    (row.mapM p).Writes c fun bs high => Row range nodes c.pos high bs := by
  induction row generalizing c with
  | nil => exact .nil _
  | cons a row ih =>
    rw [List.mapM_cons]
    refine (each a c).bind fun b c₁ hb => ?_
    exact (ih c₁).bind fun bs c₂ hbs => writes_pure (.cons hb hbs)

theorem Sketch.placeParameter_fits (p : String × String) (c : Cursor) :
    (Sketch.placeParameter p).Writes c fun p high =>
      Placed c.pos high p.mark.range p.composites := by
  refine (writes_name p.1 c).bind fun name c₁ hn => ?_
  refine (writes_typeClause p.2 c₁).bind fun type c₂ ht => writes_mark fun id => ?_
  exact .node (n := .parameter _) (hn.join ht.within).1 (Composite.fits_pair rfl rfl rfl rfl)
    ht.fits

/-- A signature is written behind the statements of a body, and in front of a body without any. -/
theorem Function.fits {f : Function} {low middle front back high : Nat}
    (whole : (Composite.function f).range = f.name.mark.range.cover f.bodyMark.range)
    (name : Within middle front f.name.mark.range)
    (parameters : ∀ p ∈ f.parameters, Within front back p.mark.range)
    (returns : ∀ t ∈ f.returns, Within front back t.mark.range)
    (body : f.body.isEmpty = true ∧ Within back high f.bodyMark.range ∨
      f.body.isEmpty = false ∧ Within low middle f.bodyMark.range) :
    Composite.Fits (.function f) := by
  have signature {r : TextRange} (between : Within front back r) :
      (Composite.function f).range.Contains r ↔ (!f.body.isEmpty) = false := by
    rw [whole]
    obtain ⟨empty, body⟩ | ⟨filled, body⟩ := body
    · simpa [empty] using name.cover_contains_between between body
    · simpa [filled] using (body.join name).2.not_contains_behind between
  simp only [Composite.Fits, Composite.pieces, List.cons_append, List.forall_mem_cons,
    List.forall_mem_append, List.forall_mem_map, forall_typePieces]
  refine ⟨.inside (whole ▸ TextRange.cover_contains_left ..) rfl,
    .inside (whole ▸ TextRange.cover_contains_right ..) rfl, ?_, ?_⟩
  · exact fun p member => signature (parameters p member)
  · exact fun t member => signature (returns t member)

theorem Sketch.Function.place_fits (f : Sketch.Function) (c : Cursor) :
    f.place.Writes c fun f high => Placed c.pos high f.mark.range f.composites := by
  refine (placeStmts_fits f.body c).bind fun body c₁ hbody => ?_
  refine (writes_name f.name c₁).bind fun name c₂ hn => ?_
  refine (writes_mapM placeParameter_fits f.parameters c₂).bind fun parameters c₃ hp => ?_
  refine (writes_typeClause? f.returns c₃).bind fun returns c₄ ⟨le, hr⟩ => ?_
  refine (writes_blockMark hbody).bind fun m c₅ ⟨hblock, place⟩ => writes_mark fun id => ?_
  have parametersBehind : ∀ p ∈ parameters, Within c₂.pos c₄.pos p.mark.range :=
    fun p member => (hp.within member).mono (Nat.le_refl _) le
  have returnsBehind : ∀ t ∈ returns, Within c₂.pos c₄.pos t.mark.range :=
    fun t member => (hr t member).within.mono hp.le (Nat.le_refl _)
  have bodyPlace := place.imp_right fun ⟨filled, within, _⟩ => And.intro filled within
  refine .node (n := .function _) ?_ (Function.fits rfl hn parametersBehind returnsBehind bodyPlace)
    ?_
  · -- The body is written first, or last when it is empty; the name is between these places.
    have signature := Nat.le_trans hp.le le
    obtain ⟨-, within⟩ | ⟨-, within, stop⟩ := place
    · have name := hn.mono hbody.le signature
      exact (name.join within).1
    · exact (within.join hn).2.mono (Nat.le_refl _) (stop ▸ signature)
  · have clauses := fits_typeComposites fun t member => (hr t member).fits
    have block := List.forall_mem_cons.2 ⟨hblock, stmtComposites_eq body ▸ hbody.fits_flatMap⟩
    exact List.forall_mem_append.2 ⟨hp.fits_flatMap, List.forall_mem_append.2 ⟨clauses, block⟩⟩

theorem Sketch.Member.place_fits (m : Sketch.Member) (c : Cursor) :
    m.place.Writes c fun m high => Placed c.pos high m.textRange m.composites := by
  cases m with
  | function f => exact (f.place_fits c).bind fun f c₁ hf => writes_pure hf
  | statement s =>
    refine (s.place_fits c).bind fun s c₁ hs => writes_mark fun id => ?_
    exact .node (n := .global _ _) hs.within (Composite.fits_single rfl rfl rfl) hs.fits

theorem Sketch.Unit.place_fits (u : Sketch.Unit) (c : Cursor) :
    u.place.Writes c fun u _ => ∀ n ∈ u.composites, n.Fits := by
  refine (writes_mapM Member.place_fits u.members c).bind fun members c₁ row => ?_
  refine List.forall_mem_cons.2 ⟨?_, row.fits_flatMap⟩
  simp only [Composite.Fits, Composite.pieces, List.forall_mem_map]
  exact fun m member => .inside ⟨Nat.zero_le _, Nat.le_of_lt (row.within member).stop⟩ rfl

/-- In every unit, wherever it is placed, each node covers the pieces that it stores, but for those
that its form leaves out. -/
theorem Sketch.Unit.place_covers {u : Sketch.Unit} {c : Cursor} {n : Composite}
    {piece : Role × TextRange} (member : n ∈ (u.place c).1.composites) (stored : piece ∈ n.pieces)
    (kept : n.leavesOut piece.1 = false) : n.range.Contains piece.2 :=
  (u.place_fits c n member piece stored).2 kept

namespace CountedLoop

def sketch : Sketch.Unit :=
  ⟨none, [.statement (.forIn "i" (.range (.literal (.int 1)) (.literal (.int 3))) (.block []))]⟩

def loop : Stmt :=
  .forIn ⟨⟨4, 8⟩, 5⟩ ⟨⟨⟨7, 8⟩, 4⟩, "i"⟩
    (.range ⟨⟨0, 3⟩, 2⟩ (.literal ⟨⟨0, 1⟩, 0⟩ (.int 1)) (.literal ⟨⟨2, 3⟩, 1⟩ (.int 3)))
    (.block ⟨⟨4, 6⟩, 3⟩ [])

theorem placed : (sketch.place .start).1 = ⟨⟨⟨0, 9⟩, 7⟩, none, [.statement ⟨⟨4, 8⟩, 6⟩ loop]⟩ := rfl

theorem loop_mem : .stmt loop ∈ (sketch.place .start).1.composites := by
  rw [placed]
  exact .tail _ (.tail _ (.head _))

end CountedLoop

/-- The loop reaches to its name. -/
theorem countedLoop_covers_name :
    Composite.stmt CountedLoop.loop ∈ (CountedLoop.sketch.place .start).1.composites ∧
      (.name, ⟨7, 8⟩) ∈ (Composite.stmt CountedLoop.loop).pieces ∧
      (Composite.stmt CountedLoop.loop).leavesOut .name = false ∧
      CountedLoop.loop.textRange.Contains ⟨7, 8⟩ := by
  have stored : (.name, ⟨7, 8⟩) ∈ (Composite.stmt CountedLoop.loop).pieces := .head _
  exact ⟨CountedLoop.loop_mem, stored, rfl,
    Sketch.Unit.place_covers CountedLoop.loop_mem stored rfl⟩

/-- The numbers that a loop runs over are written in front of its body and its name. -/
theorem countedLoop_leaves_range :
    ¬ ∀ n ∈ (CountedLoop.sketch.place .start).1.composites, ∀ piece ∈ n.pieces,
      n.range.Contains piece.2 := by
  intro covers
  have stored : (.range, ⟨0, 3⟩) ∈ (Composite.stmt CountedLoop.loop).pieces := .tail _ (.head _)
  have contains := covers _ CountedLoop.loop_mem _ stored
  exact absurd contains.1 (by decide)

end ScriptLang.Source
