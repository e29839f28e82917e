import ScriptLang.Proofs.ChainSafe
import ScriptLang.Proofs.FlatRun

/-! A place in a body that a run can come to has a place in the body without its unreachable
code, and from there the smaller body does the same, step by step. So removal changes no
answer of any run, whatever labels the bodies define twice or not at all. -/

namespace ScriptLang

open FlowGraph

inductive Answer.Match {α β : Type} (R : α → β → Prop) : Answer α → Answer β → Prop
  | ok {a : α} {b : β} (related : R a b) (s : State) : Match R (.ok a s) (.ok b s)
  | error (stop : Stop) (s : State) : Match R (.error stop s) (.error stop s)

theorem Answer.Match.bind {α β γ : Type} {R : β → γ → Prop} {x : Run α} {f : α → Run β}
    {g : α → Run γ} (rest : ∀ a s, Match R (f a s) (g a s)) (s : State) :
    Match R ((x >>= f) s) ((x >>= g) s) := by
  cases given : x s with
  | ok a t =>
    rw [Run.bind_of_ok f given, Run.bind_of_ok g given]
    exact rest a t
  | error stop t =>
    rw [Run.bind_of_error f given, Run.bind_of_error g given]
    exact .error stop t

namespace Body

variable {body : Body} {before after : List Block} {b : Block} {i j : Nat}

def keeps (body : Body) (b : Block) : Bool := (ofBody body).reachable.contains b.id

theorem keeps_iff : body.keeps b = true ↔ body.Live b.id := List.contains_iff_mem

theorem removeUnreachable_eq_text (body : Body) :
    body.removeUnreachable = FlowGraph.text (body.blocks.filter body.keeps) :=
  removeUnreachable_eq body

/-- A place in a kept block and the place of the same statement in the smaller body, or the
two ends. -/
inductive Aligned (body : Body) : Nat → Nat → Prop
  | inside {before after : List Block} {b : Block} {k : Nat}
      (stands : b.Stands body before after) (live : body.Live b.id)
      (within : k < b.statements.length) :
      Aligned body (b.offset + k) ((FlowGraph.text (before.filter body.keeps)).length + k)
  | finish : Aligned body body.length body.removeUnreachable.length

theorem text_removeUnreachable (stands : b.Stands body before after) (live : body.Live b.id) :
    body.removeUnreachable = FlowGraph.text (before.filter body.keeps) ++
      (b.statements ++ FlowGraph.text (after.filter body.keeps)) := by
  rw [removeUnreachable_eq_text, stands.blocks, List.filter_append,
    List.filter_cons_of_pos (keeps_iff.2 live), text_append, text_cons]

theorem Aligned.get (aligned : body.Aligned i j) : body[i]? = body.removeUnreachable[j]? := by
  cases aligned with
  | inside stands live within =>
    rw [get_of_stands stands within, text_removeUnreachable stands live,
      List.getElem?_append_right (Nat.le_add_right _ _), Nat.add_sub_cancel_left,
      List.getElem?_append_left within]
  | finish => simp

/-- The first block is kept, and so is one that is entered from a kept block before it. -/
theorem aligned_front (before : List Block) {blocks : List Block} (split : body.blocks = before ++ blocks)
    (live : body.Live (firstOf blocks)) :
    body.Aligned (FlowGraph.text before).length
      (FlowGraph.text (before.filter body.keeps)).length := by
  cases blocks with
  | nil =>
    rw [List.append_nil] at split
    have length : (FlowGraph.text before).length = body.length := by rw [← split, text_blocks]
    rw [length, ← split, ← removeUnreachable_eq_text]
    exact .finish
  | cons b after =>
    have stands : b.Stands body before after := ⟨split⟩
    rw [← stands.offset]
    exact .inside (k := 0) stands live (List.length_pos_iff.2 stands.isRun.notEmpty)

theorem aligned_start (body : Body) : body.Aligned 0 0 :=
  aligned_front [] rfl live_first

/-- Behind a statement after which control goes on stands the next statement of both bodies. -/
theorem Aligned.next (aligned : body.Aligned i j) {s : Stmt} (get : body[i]? = some s)
    (goesOn : s.isTerminator = false) : body.Aligned (i + 1) (j + 1) := by
  cases aligned with
  | finish => simp at get
  | @inside before after b k stands live within =>
    by_cases inner : k + 1 < b.statements.length
    · exact .inside stands live inner
    · rw [get_of_stands stands within] at get
      have last : b.statements.getLast? = some s := by
        rw [List.getLast?_eq_getElem?, ← get]
        congr
        omega
      obtain ⟨e, leads, same⟩ := edge_behind body.blocks (firstOf after) last goesOn
      have live' := same ▸ live_of_blockEdge stands live leads
      have behind := aligned_front (before ++ [b]) (by simp [stands.blocks]) live'
      rw [List.filter_append, List.filter_cons_of_pos (keeps_iff.2 live)] at behind
      simp only [List.filter_nil, text_append, text_cons, text_nil, List.append_nil,
        List.length_append, ← stands.offset] at behind
      rwa [show b.statements.length = k + 1 by omega] at behind

/-- A jump of a kept statement leads in both bodies to the same statement, or nowhere. -/
theorem Aligned.jump (aligned : body.Aligned i j) {s : Stmt} (get : body[i]? = some s) {l : Label}
    (target : l ∈ s.targets) :
    (body.labelPlace? l = none ∧ body.removeUnreachable.labelPlace? l = none) ∨
      ∃ i' j', body.labelPlace? l = some i' ∧ body.removeUnreachable.labelPlace? l = some j' ∧
        body.Aligned i' j' := by
  cases aligned with
  | finish => simp at get
  | @inside before after b k stands live within =>
    by_cases defined : l.id ∈ definitions body
    · right
      obtain ⟨before', b', after', starts⟩ := exists_lastStart defined
      have live' : body.Live b'.id := by
        rw [get_of_stands stands within] at get
        obtain ⟨e, leads, same⟩ := edge_of_target stands (List.mem_of_getElem? get) target
        rw [← starts.labelBlock, ← same]
        exact live_of_blockEdge stands live leads
      have place := starts.labelPlace?_filter _ (keeps_iff.2 live')
      rw [← removeUnreachable_eq_text] at place
      have notEmpty := List.length_pos_iff.2 starts.stands.isRun.notEmpty
      exact ⟨_, _, starts.labelPlace?, place, .inside (k := 0) starts.stands live' notEmpty⟩
    · left
      have undefined : l.id ∉ definitions body.removeUnreachable := by
        intro kept
        obtain ⟨t, member, isLabel⟩ := mem_definitions.1 kept
        exact defined (mem_definitions.2 ⟨t, mem_of_mem_removeUnreachable member, isLabel⟩)
      exact ⟨labelPlaceFrom?_eq_none defined, labelPlaceFrom?_eq_none undefined⟩

/-- From aligned places both bodies lead to aligned places. -/
theorem Aligned.leads (aligned : body.Aligned i j) {i' : Nat} (leads : body.LeadsTo i i') :
    ∃ j', body.Aligned i' j' ∧ body.removeUnreachable.LeadsTo j j' := by
  obtain ⟨s, get, leads⟩ := leads
  have get' := aligned.get ▸ get
  have jump {l : Label} (target : l ∈ s.targets) (found : body.labelPlace? l = some i') :
      ∃ j', body.Aligned i' j' ∧ body.removeUnreachable.labelPlace? l = some j' := by
    rcases aligned.jump get target with ⟨missing, _⟩ | ⟨k, j', found', kept, aligned'⟩
    · rw [missing] at found
      contradiction
    · obtain rfl := Option.some.inj (found'.symm.trans found)
      exact ⟨j', aligned', kept⟩
  have next (goesOn : s.isTerminator = false) (isNext : i' = i + 1) :
      body.Aligned i' (j + 1) := isNext ▸ aligned.next get goesOn
  cases s with
  | goto l =>
    obtain ⟨j', aligned', kept⟩ := jump List.mem_cons_self leads
    exact ⟨j', aligned', _, get', kept⟩
  | gotoIf l c value =>
    rcases leads with found | isNext
    · obtain ⟨j', aligned', kept⟩ := jump List.mem_cons_self found
      exact ⟨j', aligned', _, get', .inl kept⟩
    · exact ⟨j + 1, next rfl isNext, _, get', .inr rfl⟩
  | ret value => exact leads.elim
  | _ => exact ⟨j + 1, next rfl leads, _, get', rfl⟩

/-- Where the smaller body leads, the whole one leads to an aligned place. -/
theorem Aligned.leads_back (aligned : body.Aligned i j) {j' : Nat}
    (leads : body.removeUnreachable.LeadsTo j j') : ∃ i', body.Aligned i' j' ∧ body.LeadsTo i i' := by
  obtain ⟨s, get', leads⟩ := leads
  have get := aligned.get.trans get'
  have jump {l : Label} (target : l ∈ s.targets)
      (found : body.removeUnreachable.labelPlace? l = some j') :
      ∃ i', body.Aligned i' j' ∧ body.labelPlace? l = some i' := by
    rcases aligned.jump get target with ⟨_, missing⟩ | ⟨i', k, found', kept, aligned'⟩
    · rw [missing] at found
      contradiction
    · obtain rfl := Option.some.inj (kept.symm.trans found)
      exact ⟨i', aligned', found'⟩
  have next (goesOn : s.isTerminator = false) (isNext : j' = j + 1) :
      body.Aligned (i + 1) j' := isNext ▸ aligned.next get goesOn
  cases s with
  | goto l =>
    obtain ⟨i', aligned', found⟩ := jump List.mem_cons_self leads
    exact ⟨i', aligned', _, get, found⟩
  | gotoIf l c value =>
    rcases leads with kept | isNext
    · obtain ⟨i', aligned', found⟩ := jump List.mem_cons_self kept
      exact ⟨i', aligned', _, get, .inl found⟩
    · exact ⟨i + 1, next rfl isNext, _, get, .inr rfl⟩
  | ret value => exact leads.elim
  | _ => exact ⟨i + 1, next rfl leads, _, get, rfl⟩

/-- The places that two runs go on to are aligned, or they return the same value. -/
inductive NextAligned (body : Body) : Next → Next → Prop
  | goto {i j : Nat} (aligned : body.Aligned i j) : NextAligned body (.goto i) (.goto j)
  | ret (value : Option Value) : NextAligned body (.ret value) (.ret value)

theorem Aligned.jump_match (aligned : body.Aligned i j) {s : Stmt} (get : body[i]? = some s)
    {l : Label} (target : l ∈ s.targets) (t : State) :
    Answer.Match body.NextAligned (Run.jump body l t) (Run.jump body.removeUnreachable l t) := by
  unfold Run.jump
  rcases aligned.jump get target with ⟨missing, missing'⟩ | ⟨i', j', found, found', aligned'⟩
  · rw [missing, missing']
    exact .error _ t
  · rw [found, found']
    exact .ok (.goto aligned') t

/-- A statement does the same in both bodies and leads to aligned places. -/
theorem Aligned.stmt_match (aligned : body.Aligned i j) {s : Stmt} (get : body[i]? = some s)
    (invoke : Invoke) (isEntry : Bool) (t : State) :
    Answer.Match body.NextAligned (Run.stmt invoke body isEntry i s t)
      (Run.stmt invoke body.removeUnreachable isEntry j s t) := by
  have goOn (goesOn : s.isTerminator = false) (t : State) :
      Answer.Match body.NextAligned (.ok (.goto (i + 1)) t) (.ok (.goto (j + 1)) t) :=
    .ok (.goto (aligned.next get goesOn)) t
  cases s with
  | declare v e =>
    apply Answer.Match.bind
    intro value
    apply Answer.Match.bind
    exact fun _ => goOn rfl
  | expr e =>
    apply Answer.Match.bind
    intro value
    by_cases counts : isEntry = true
    · simp only [counts, if_true]
      apply Answer.Match.bind
      exact fun _ => goOn rfl
    · simp only [counts]
      exact goOn rfl
  | label l => exact goOn rfl t
  | goto l => exact aligned.jump_match get List.mem_cons_self t
  | gotoIf l c value =>
    apply Answer.Match.bind
    intro result t
    cases result with
    | bool b =>
      by_cases taken : b = value
      · simp only [taken, if_true]
        exact aligned.jump_match get List.mem_cons_self t
      · simp only [taken, if_false]
        exact goOn rfl t
    | _ => exact .error _ t
  | ret value =>
    cases value with
    | none => exact .ok (.ret none) t
    | some e =>
      apply Answer.Match.bind
      exact fun result => .ok (.ret (some result))
  | _ => exact .error _ t

end Body

def Bodies.removeUnreachable (bodies : Bodies) : Bodies :=
  bodies.map fun (f, body) => (f, body.removeUnreachable)

/-- The program with every body, also of earlier units, without its unreachable code. -/
def Program.removeUnreachable (p : Program) : Program :=
  { p with
    bodies := p.bodies.removeUnreachable
    earlier := p.earlier.map Bodies.removeUnreachable }

theorem Bodies.body?_removeUnreachable (bodies : Bodies) (f : Fn) :
    bodies.removeUnreachable.body? f = (bodies.body? f).map Body.removeUnreachable := by
  unfold removeUnreachable body?
  rw [List.find?_map, Option.map_map, Option.map_map]
  rfl

namespace Program

variable (p : Program) (limit : Option Nat)

theorem body?_removeUnreachable (f : Fn) :
    p.removeUnreachable.body? f = (p.body? f).map Body.removeUnreachable := by
  have same : (Bodies.body? · f) ∘ Bodies.removeUnreachable =
      Option.map Body.removeUnreachable ∘ (Bodies.body? · f) :=
    funext fun bodies => bodies.body?_removeUnreachable f
  show ((p.bodies :: p.earlier).map Bodies.removeUnreachable).findSome? (Bodies.body? · f) = _
  rw [List.findSome?_map, same, ← List.map_findSome?]
  rfl

/-- From aligned places on, the bodies do the same with the same fuel. -/
theorem runFrom_removeUnreachable (fuel : Nat) {body : Body} {i j : Nat}
    (aligned : body.Aligned i j) :
    p.removeUnreachable.runFrom limit fuel body.removeUnreachable j = p.runFrom limit fuel body i := by
  induction fuel generalizing body i j with
  | zero => rfl
  | succ fuel ih =>
    have sameCalls : p.removeUnreachable.callee limit fuel = p.callee limit fuel := by
      funext f args
      unfold callee invoke
      congr
      funext s
      rw [body?_removeUnreachable]
      cases p.body? f with
      | none => rfl
      | some callee => simp only [Option.map_some, ih (Body.aligned_start callee)]
    funext s
    cases get : body[i]? with
    | none =>
      rw [p.runFrom_end limit fuel get, runFrom_end _ limit fuel (aligned.get ▸ get)]
    | some stmt =>
      rw [p.runFrom_succ limit fuel get, runFrom_succ _ limit fuel (aligned.get ▸ get), sameCalls]
      have step := aligned.stmt_match get (p.callee limit fuel) s.inEntry s
      revert step
      generalize Run.stmt (p.callee limit fuel) body s.inEntry i stmt s = answer
      generalize Run.stmt (p.callee limit fuel) body.removeUnreachable s.inEntry j stmt s = answer'
      intro step
      cases step with
      | error stop t => rfl
      | @ok next next' related t =>
        cases related with
        | goto aligned' => exact congrFun (ih aligned') t
        | ret value => rfl

theorem execute_removeUnreachable (fuel : Nat) :
    p.removeUnreachable.execute limit fuel = p.execute limit fuel := by
  have same : p.removeUnreachable.diagnostics = p.diagnostics ∧
      p.removeUnreachable.entry = p.entry := ⟨rfl, rfl⟩
  unfold execute executeWith
  rw [same.1, same.2]
  cases p.entry with
  | none => rfl
  | some entry =>
    simp only [body?_removeUnreachable]
    cases p.body? entry with
    | none => rfl
    | some body =>
      simp only [Option.map_some, runFrom_removeUnreachable p limit fuel (Body.aligned_start body)]

theorem evaluate_removeUnreachable (fuel : Nat) (globals : Store) (host : Host) :
    p.removeUnreachable.evaluate limit fuel globals host = p.evaluate limit fuel globals host := by
  unfold evaluate
  rw [execute_removeUnreachable]

end Program

def Options.removing (options : Options) (removes : Bool) : Options :=
  { options with removeUnreachable := removes }

namespace Compilation

variable (options : Options)

def removeUnreachable (c : Compilation) : Compilation :=
  { c with options := c.options.removing true, program := c.program.removeUnreachable }

theorem lowerBodies_removing (file : Option String) (u : Source.Unit) (bound : List (Fn × Body))
    (next : Nat) :
    lowerBodies (options.removing true) file u bound next =
      let kept := lowerBodies (options.removing false) file u bound next
      ((Bodies.removeUnreachable kept.1.1, kept.1.2), kept.2) := by
  induction bound generalizing next with
  | nil => rfl
  | cons p bound ih =>
    obtain ⟨f, body⟩ := p
    rw [lowerBodies_cons, lowerBodies_cons, ih]
    rfl

theorem compileAfter_removing (history : List Declarations) (earlier : List Bodies)
    (u : Source.Unit) (next : Nat) :
    compileAfter (options.removing true) history (earlier.map Bodies.removeUnreachable) u next =
      let kept := compileAfter (options.removing false) history earlier u next
      (kept.1.removeUnreachable, kept.2) := by
  rw [compileAfter_eq, compileAfter_eq]
  simp only [lowerBodies_removing]
  rfl

theorem compileAll_removing (us : List Source.Unit) (history : List Declarations)
    (earlier : List Bodies) (next : Nat) :
    compileAll (options.removing true) history (earlier.map Bodies.removeUnreachable) us next =
      let kept := compileAll (options.removing false) history earlier us next
      (kept.1.map removeUnreachable, kept.2) := by
  induction us generalizing history earlier next with
  | nil => rfl
  | cons u us ih =>
    have head := compileAfter_removing options history earlier u next
    rw [compileAll_cons, compileAll_cons, head]
    have tail := ih
      ((compileAfter (options.removing false) history earlier u next).1.declarations :: history)
      (compileAfter (options.removing false) history earlier u next).1.program.units
      (compileAfter (options.removing false) history earlier u next).2
    exact congrArg (Prod.map (List.cons _) id) tail

/-- Unreachable code is all that removal takes from compiled units. -/
theorem chain_removing (us : List Source.Unit) (next : Nat) :
    (chain (options.removing true) us next).1 =
      (chain (options.removing false) us next).1.map removeUnreachable := by
  rw [chain_eq_compileAll, chain_eq_compileAll]
  exact congrArg Prod.fst (compileAll_removing options us [] [] next)

theorem evaluateAll_removeUnreachable (cs : List Compilation) (fuel : Nat) (globals : Store)
    (host : Host) :
    evaluateAll fuel globals host (cs.map removeUnreachable) = evaluateAll fuel globals host cs := by
  induction cs generalizing globals host with
  | nil => rfl
  | cons c cs ih =>
    have head : c.removeUnreachable.evaluate fuel globals host = c.evaluate fuel globals host :=
      c.program.evaluate_removeUnreachable c.options.maxCallDepth fuel globals host
    simp only [List.map_cons, evaluateAll, head, ih]

end Compilation

/-- Removing unreachable code changes no outcome: that of no program with any bodies, with any
fuel and limit of calls and from any globals and host, and in a chain of units neither what
compiling reports nor what evaluating gives. -/
theorem removal_changes_no_outcome :
    (∀ (p : Program) (limit : Option Nat) (fuel : Nat) (globals : Store) (host : Host),
      p.removeUnreachable.evaluate limit fuel globals host = p.evaluate limit fuel globals host) ∧
    ∀ (options : Options) (us : List Source.Unit) (next : Nat),
      let removed := (Compilation.chain (options.removing true) us next).1
      let kept := (Compilation.chain (options.removing false) us next).1
      removed.map Compilation.diagnostics = kept.map Compilation.diagnostics ∧
        ∀ (fuel : Nat) (globals : Store) (host : Host),
          Compilation.evaluateAll fuel globals host removed =
            Compilation.evaluateAll fuel globals host kept := by
  refine ⟨Program.evaluate_removeUnreachable, fun options us next => ?_⟩
  simp only [Compilation.chain_removing]
  constructor
  · rw [List.map_map]
    rfl
  · exact Compilation.evaluateAll_removeUnreachable _

end ScriptLang
