import ScriptLang.Proofs.OutsideCode
import ScriptLang.Proofs.ReachedPlaces
import ScriptLang.Proofs.RenamedLowering
import ScriptLang.Proofs.RenamedRuns

/-! The code of one program stands in another program under other numbers, with more code behind it. If
the first code does not return, and it runs to its end, then the second program comes to the code
behind it, in a state that is the same but for the numbers of variables. -/

namespace ScriptLang

theorem labelPlaceFrom?_front {l : Label} {place : Nat} {code rest : List Stmt}
    (undefined : l.id ∉ definitions rest) :
    labelPlaceFrom? l place (code ++ rest) = labelPlaceFrom? l place code := by
  induction code generalizing place with
  | nil => exact labelPlaceFrom?_eq_none undefined
  | cons s code ih => rw [List.cons_append, labelPlaceFrom?, labelPlaceFrom?, ih]

section

variable {ρ : Renaming}

theorem Stmt.definition?_rename (s : Stmt) :
    (s.rename ρ).definition? = s.definition?.map ρ.own := by
  cases s <;> rfl

theorem definitions_rename (code : List Stmt) :
    definitions (Body.rename ρ code) = (definitions code).map ρ.own := by
  unfold definitions Body.rename
  rw [List.filterMap_map, List.map_filterMap]
  exact List.filterMap_congr fun s _ => s.definition?_rename

variable {code tail rest : List Stmt}

/-- The labels of the first code lead to its statements, also with other code behind it. -/
theorem LeadsAlike.front {l : Label} (noLabel : definitions tail = [])
    (apart : ∀ id ∈ definitions code, ρ.own id ∉ definitions rest)
    (defined : l.id ∈ definitions code) :
    LeadsAlike ρ 0 (code ++ tail) (Body.rename ρ code ++ rest) l := by
  obtain ⟨place, found, found'⟩ := (Body.embedded_rename code).label l defined
  refine ⟨place, ?_, ?_⟩
  · rw [← found]
    exact labelPlaceFrom?_front (noLabel ▸ List.not_mem_nil)
  · rw [← found']
    exact labelPlaceFrom?_front (apart l.id defined)

end

/-- From code whose labels lead into it, a statement leads into the code or to its end. -/
theorem Stmt.LeadsTo.le_length {code : List Stmt} {body : Body} {stmt : Stmt} {place target : Nat}
    (leads : stmt.LeadsTo body place target) (bound : place < code.length)
    (labels : ∀ l ∈ stmt.targets, ∀ found, body.labelPlace? l = some found → found < code.length) :
    target ≤ code.length := by
  cases stmt with
  | goto l => exact Nat.le_of_lt (labels l List.mem_cons_self target leads)
  | gotoIf l c value =>
    rcases leads with found | rfl
    · exact Nat.le_of_lt (labels l List.mem_cons_self target found)
    · exact bound
  | ret value => exact leads.elim
  | _ =>
    obtain rfl : target = place + 1 := leads
    exact bound

namespace Program

variable {ρ : Renaming} {F : Fn → Prop} {p p' : Program} {limit : Option Nat}

/-- Behind code, a return without a value and the end of the body are the same. -/
theorem runFrom_tail (p : Program) (limit : Option Nat) {code tail : List Stmt}
    (returns : ∀ s ∈ tail, s = .ret none) (fuel : Nat) (s : State) :
    p.runFrom limit (fuel + 1) (code ++ tail) code.length s = .ok none s := by
  have get : (code ++ tail)[code.length]? = tail.head? := by
    rw [List.getElem?_append_right (Nat.le_refl _), Nat.sub_self, List.head?_eq_getElem?]
  cases tail with
  | nil => exact runFrom_end _ _ _ get s
  | cons stmt tail =>
    obtain rfl := returns stmt List.mem_cons_self
    rw [runFrom_succ _ _ _ get]
    rfl

/-- Where the first code runs to its end, the second program comes to what is behind it, with as
much more fuel as it was given. -/
theorem Renames.runFrom_front (renames : p.Renames ρ F p') {code tail rest : List Stmt}
    (outside : StaysOutside code) (returns : ∀ s ∈ tail, s = .ret none)
    (whole : Body.SelfContained code) (calls : CallsOnly F code)
    (apart : ∀ id ∈ definitions code, ρ.own id ∉ definitions rest) (fuel : Nat) {place : Nat}
    (bound : place ≤ code.length) {s t s₁ : State} {value : Option Value}
    (renamed : s.Renamed ρ False t)
    (ended : p.runFrom limit fuel (code ++ tail) place s = .ok value s₁) (m : Nat) :
    ∃ j t₁, m ≤ j ∧ s₁.Renamed ρ False t₁ ∧
      p'.runFrom limit (fuel + m) (Body.rename ρ code ++ rest) place t =
        p'.runFrom limit j (Body.rename ρ code ++ rest) code.length t₁ := by
  have noLabel : definitions tail = [] := by
    refine List.filterMap_eq_nil_iff.2 fun s member => ?_
    rw [returns s member]
    rfl
  induction fuel generalizing place s t with
  | zero => cases ended
  | succ fuel ih =>
    rcases Nat.eq_or_lt_of_le bound with rfl | inside
    · rw [p.runFrom_tail limit returns] at ended
      cases ended
      exact ⟨fuel + 1 + m, t, Nat.le_add_left _ _, renamed, rfl⟩
    · have get : (code ++ tail)[place]? = some code[place] := by
        rw [List.getElem?_append_left inside, List.getElem?_eq_getElem inside]
      have get' : (Body.rename ρ code ++ rest)[place]? = some (code[place].rename ρ) := by
        have inside' : place < (Body.rename ρ code).length := by
          rw [Body.rename, List.length_map]
          exact inside
        rw [List.getElem?_append_left inside', Body.rename, List.getElem?_map,
          List.getElem?_eq_getElem inside]
        rfl
      have member : code[place] ∈ code := List.getElem_mem inside
      generalize code[place] = stmt at get get' member
      have jumps : ∀ l ∈ stmt.targets,
          LeadsAlike ρ 0 (code ++ tail) (Body.rename ρ code ++ rest) l :=
        fun l target => .front noLabel apart (whole.targets stmt member l target)
      have called : CallsRenamed ρ False True (p.callee limit fuel)
          (p'.callee limit (fuel + m)) stmt.calls :=
        renames.callee_renames (fun callee whole calls => renames.runFrom_renames limit
          (.inr trivial) fuel whole calls callee.embedded_rename 0) (calls stmt member)
      have step := Run.stmt_renames (List.all_eq_true.1 whole.isFlat stmt member) jumps called
        s.inEntry place s t renamed
      rw [p.runFrom_succ limit fuel get] at ended
      rw [Nat.add_right_comm fuel 1 m, p'.runFrom_succ limit (fuel + m) get', renamed.inEntry]
      rw [Nat.zero_add] at step
      cases given : Run.stmt (p.callee limit fuel) (code ++ tail) s.inEntry place stmt s with
      | error stop u =>
        rw [given] at ended
        cases ended
      | ok next u =>
        rw [given] at ended step
        generalize Run.stmt (p'.callee limit (fuel + m)) (Body.rename ρ code ++ rest) s.inEntry
          place (stmt.rename ρ) t = second at step ⊢
        obtain ⟨related, renamed'⟩ := step
        obtain ⟨target, rfl, leads⟩ := Run.stmt_leads (outside stmt member).1 given
        obtain rfl := related
        have further : target ≤ code.length := by
          refine leads.le_length inside fun l isTarget found isFound => ?_
          have within : Body.labelPlace? code l = some found :=
            (labelPlaceFrom?_front (noLabel ▸ List.not_mem_nil)).symm.trans isFound
          exact Body.labelPlace?_lt within
        simp only [Next.shift, Nat.zero_add]
        exact ih further renamed' ended

end Program

namespace Body

/-- Code is closed with returns without a value, if with anything. -/
theorem exists_close (returns : Ty) (code : Body) :
    ∃ tail, close returns code = code ++ tail ∧ ∀ s ∈ tail, s = .ret none := by
  unfold close
  split
  · exact ⟨[.ret none], rfl, List.forall_mem_singleton.2 rfl⟩
  · exact ⟨[], (List.append_nil code).symm, List.forall_mem_nil _⟩

theorem SelfContained.of_close {returns : Ty} {code : Body}
    (whole : (close returns code).SelfContained) : SelfContained code := by
  obtain ⟨tail, closed, _⟩ := exists_close returns code
  have within {s : Stmt} (member : s ∈ code) : s ∈ close returns code := by
    rw [closed]
    exact List.mem_append_left tail member
  refine ⟨List.all_eq_true.2 fun s member => List.all_eq_true.1 whole.isFlat s (within member), ?_⟩
  intro s member l target
  rw [← definitions_close returns code]
  exact whole.targets s (within member) l target

theorem close_append (returns : Ty) (before : Body) {code : Body} (isCode : code ≠ []) :
    close returns (before ++ code) = before ++ close returns code := by
  have last : (before ++ code).getLast? = code.getLast? := List.getLast?_append_of_ne_nil _ isCode
  unfold close
  rw [last]
  split
  · exact List.append_assoc _ _ _
  · rfl

end Body

namespace Program

variable {ρ : Renaming} {withLast loose : Prop} {F : Fn → Prop} {p p' : Program}

/-- Behind other code, closed code is run as it is run alone. -/
theorem Renames.runFrom_behind (renames : p.Renames ρ F p') (limit : Option Nat) {extra : Nat}
    (spare : extra = 0 ∨ loose) (fuel : Nat) (before : Body) {code : Body}
    (whole : (Body.close .void code).SelfContained) (calls : CallsOnly F (Body.close .void code)) :
    Run.Renamed ρ withLast loose Eq (p.runFrom limit fuel (Body.close .void code) 0)
      (p'.runFrom limit (fuel + extra) (Body.close .void (before ++ code.rename ρ))
        before.length) := by
  by_cases isCode : code = []
  · subst isCode
    obtain ⟨tail, closed, returns⟩ := Body.exists_close .void before
    have isEnd : Body.close .void (before ++ Body.rename ρ []) = before ++ tail :=
      (congrArg _ (List.append_nil before)).trans closed
    rw [isEnd]
    intro s t renamed
    cases fuel with
    | zero =>
      rcases spare with rfl | isLoose
      · exact .error _ renamed
      · exact .starved isLoose
    | succ fuel =>
      have alone : p.runFrom limit (fuel + 1) (Body.close .void []) 0 s = .ok none s :=
        @runFrom_tail p limit [] _ (List.forall_mem_singleton.2 rfl) fuel s
      rw [alone, Nat.add_right_comm fuel 1 extra, p'.runFrom_tail limit returns]
      exact .ok rfl renamed
  · have isCode' : code.rename ρ ≠ [] := fun none => isCode (List.map_eq_nil_iff.1 none)
    rw [Body.close_append _ _ isCode', Body.close_rename]
    exact renames.runFrom_renames limit spare fuel whole calls (Body.embedded_append before _) 0

end Program

def Outcome.stop? (out : Outcome) : Option Stop :=
  match out.result with
  | .ok _ => none
  | .error stop => some stop

/-- The second run ends for the same reason as the first one, and but for the numbers of variables it
leaves the same. -/
structure Outcome.EndsAs (number : Nat → Nat) (first second : Outcome) : Prop where
  stop : second.stop? = first.stop?
  globals : first.globals.Renumbered number second.globals
  host : second.host = first.host

/-- The program starts with code that stands outside of functions. -/
structure Program.StartsWith (p : Program) (F : Fn → Prop) (code : Body) : Prop where
  noErrors : p.diagnostics.hasErrors = false
  entry : ∃ e, p.entry = some e ∧ p.body? e = some (Body.close .void code)
  whole : (Body.close .void code).SelfContained
  calls : CallsOnly F (Body.close .void code)

def Answer.stop? {α : Type} : Answer α → Option Stop
  | .ok _ _ => none
  | .error stop _ => some stop

structure Outcome.LeftBy {α : Type} (out : Outcome) (answer : Answer α) : Prop where
  stop : out.stop? = Answer.stop? answer
  globals : out.globals = (Answer.state answer).globals
  host : out.host = (Answer.state answer).host

theorem Outcome.LeftBy.endsAs {ρ : Renaming} {withLast loose : Prop} {α β : Type} {R : α → β → Prop}
    {out out' : Outcome} {answer : Answer α} {answer' : Answer β} (left : out.LeftBy answer)
    (left' : out'.LeftBy answer') (renamed : Answer.Renamed ρ withLast loose R answer answer')
    (fed : loose → out.stop? ≠ some .outOfFuel) : out.EndsAs ρ.own out' := by
  cases renamed with
  | ok related states =>
    refine ⟨left'.stop.trans left.stop.symm, ?_, left'.host.trans (states.host.trans left.host.symm)⟩
    rw [left.globals, left'.globals]
    exact states.globals
  | error stop states =>
    rw [Stop.relabel_plain] at left'
    refine ⟨left'.stop.trans left.stop.symm, ?_, left'.host.trans (states.host.trans left.host.symm)⟩
    rw [left.globals, left'.globals]
    exact states.globals
  | starved isLoose => exact absurd left.stop (fed isLoose)

def State.start (globals : Store) (host : Host) : State :=
  { globals, frames := [.empty], host, last := none }

/-- The outcome is what the run of the code leaves. -/
theorem Program.StartsWith.leaves {p : Program} {F : Fn → Prop} {code : Body}
    (starts : p.StartsWith F code) (limit : Option Nat) (fuel : Nat) (globals : Store) (host : Host) :
    (p.evaluate limit fuel globals host).LeftBy
      (p.runFrom limit fuel (Body.close .void code) 0 (.start globals host)) := by
  obtain ⟨e, isEntry, found⟩ := starts.entry
  have executes : p.execute limit fuel = do
      let value ← Run.inFrame .empty (p.runFrom limit fuel (Body.close .void code) 0)
      return value <|> (← get).last := by
    unfold execute executeWith
    simp [starts.noErrors, isEntry, found]
  have framed : Run.inFrame .empty (p.runFrom limit fuel (Body.close .void code) 0)
      { globals, frames := [], host, last := none } = Answer.leave
        (p.runFrom limit fuel (Body.close .void code) 0 (.start globals host)) :=
    Run.inFrame_apply _ _ _
  unfold evaluate Run.outcome
  rw [executes]
  cases ran : p.runFrom limit fuel (Body.close .void code) 0 (.start globals host) with
  | ok value s =>
    rw [ran] at framed
    rw [Run.bind_of_ok _ framed]
    exact ⟨rfl, rfl, rfl⟩
  | error stop s =>
    rw [ran] at framed
    rw [Run.bind_of_error _ framed]
    exact ⟨rfl, rfl, rfl⟩

/-- The code of two programs stands in a third one under other numbers, in a row outside of
functions. -/
structure Program.Row (ρ : Renaming) (p₁ p₂ p : Program) (F₁ F₂ F : Fn → Prop) (code₁ code₂ : Body) :
    Prop where
  first : p₁.Renames ρ F₁ p
  second : p₂.Renames ρ F₂ p
  starts₁ : p₁.StartsWith F₁ code₁
  starts₂ : p₂.StartsWith F₂ code₂
  starts : p.StartsWith F (code₁.rename ρ ++ code₂.rename ρ)
  outside : StaysOutside code₁
  once : (definitions (code₁.rename ρ ++ code₂.rename ρ)).Nodup

namespace Program.Row

variable {ρ : Renaming} {p₁ p₂ p : Program} {F₁ F₂ F : Fn → Prop} {code₁ code₂ : Body}

/-- Where the first program comes to its end, the third one comes to the code of the second one, in a
state in which the second one might start. -/
theorem runFrom_first (row : Row ρ p₁ p₂ p F₁ F₂ F code₁ code₂) (limit : Option Nat) (fuel : Nat)
    {globals globals' : Store} (known : globals.Renumbered ρ.own globals') (host : Host)
    (ended : (p₁.evaluate limit fuel globals host).stop? = none) (m : Nat) :
    ∃ j t, m ≤ j ∧
      (State.start (p₁.evaluate limit fuel globals host).globals
        (p₁.evaluate limit fuel globals host).host).Renamed ρ False t ∧
      p.runFrom limit (fuel + m) (Body.close .void (code₁.rename ρ ++ code₂.rename ρ)) 0
          (.start globals' host) =
        p.runFrom limit j (Body.close .void (code₁.rename ρ ++ code₂.rename ρ)) code₁.length t := by
  have left := row.starts₁.leaves limit fuel globals host
  obtain ⟨tail, closed, returns⟩ := Body.exists_close .void code₁
  obtain ⟨rest, closed', returns'⟩ := Body.exists_close .void (code₁.rename ρ ++ code₂.rename ρ)
  have apart : ∀ id ∈ definitions code₁, ρ.own id ∉ definitions (code₂.rename ρ ++ rest) := by
    have same := Body.definitions_close .void (code₁.rename ρ ++ code₂.rename ρ)
    have once := row.once
    rw [← same, closed', List.append_assoc, definitions_append, definitions_rename] at once
    exact fun id member later =>
      (List.nodup_append.1 once).2.2 _ (List.mem_map_of_mem member) _ later rfl
  have calls : CallsOnly F₁ code₁ := fun s member =>
    row.starts₁.calls s (closed ▸ List.mem_append_left tail member)
  cases ran : p₁.runFrom limit fuel (Body.close .void code₁) 0 (.start globals host) with
  | error stop s =>
    rw [ran] at left
    rw [left.stop] at ended
    cases ended
  | ok value s =>
    rw [ran] at left
    have starts : (State.start globals host).Renamed ρ False (.start globals' host) :=
      ⟨known, .cons .empty .nil, rfl, False.elim⟩
    -- No statement of the code writes to the frame, so it is empty at the end as well.
    have frames : s.frames = [.empty] := by
      have writes : ∀ stmt ∈ Body.close .void code₁, ∀ v ∈ stmt.written, v.isGlobal = true := by
        rw [closed]
        refine List.forall_mem_append.2 ⟨fun stmt member => (row.outside stmt member).2, ?_⟩
        intro stmt member
        rw [returns stmt member]
        exact List.forall_mem_nil _
      have kept := p₁.runFrom_keepsFrames limit writes fuel [.empty] 0 (.start globals host) rfl
      rw [ran] at kept
      exact kept
    rw [closed] at ran
    obtain ⟨j, t, le, renamed, same⟩ := row.first.runFrom_front row.outside returns
      row.starts₁.whole.of_close calls apart fuel (Nat.zero_le _) starts ran m
    rw [List.append_assoc] at closed'
    have top := renamed.frames
    rw [frames] at top
    rw [closed', same, left.globals, left.host]
    exact ⟨j, t, le, ⟨renamed.globals, top, renamed.host, False.elim⟩, rfl⟩

/-- Given as much fuel as the first program needs and more, the third one ends as the second one does
behind the first one with at least that much more, and with less if the second one needs less. -/
theorem ends (row : Row ρ p₁ p₂ p F₁ F₂ F code₁ code₂) (limit : Option Nat) (fuel : Nat)
    {globals globals' : Store} (known : globals.Renumbered ρ.own globals') (host : Host)
    (ended : (p₁.evaluate limit fuel globals host).stop? = none) (m : Nat) :
    let out := p₁.evaluate limit fuel globals host
    let whole := p.evaluate limit (fuel + m) globals' host
    (∃ j, m ≤ j ∧ (p₂.evaluate limit j out.globals out.host).EndsAs ρ.own whole) ∧
      ∀ n ≤ m, (p₂.evaluate limit n out.globals out.host).stop? ≠ some .outOfFuel →
        (p₂.evaluate limit n out.globals out.host).EndsAs ρ.own whole := by
  intro out whole
  obtain ⟨j, t, le, renamed, same⟩ := row.runFrom_first limit fuel known host ended m
  have left : whole.LeftBy _ := row.starts.leaves limit (fuel + m) globals' host
  have length : (code₁.rename ρ).length = code₁.length := List.length_map _
  rw [same, ← length] at left
  have left₂ (n : Nat) := row.starts₂.leaves limit n out.globals out.host
  refine ⟨⟨j, le, ?_⟩, fun n bound fed => ?_⟩
  · have alike : Run.Renamed ρ False False Eq (p₂.runFrom limit j (Body.close .void code₂) 0) _ :=
      row.second.runFrom_behind limit (.inl (rfl : 0 = 0)) j (code₁.rename ρ) row.starts₂.whole
        row.starts₂.calls
    exact (left₂ j).endsAs left (alike _ t renamed) False.elim
  · have alike : Run.Renamed ρ False True Eq (p₂.runFrom limit n (Body.close .void code₂) 0)
        (p.runFrom limit (n + (j - n)) _ _) :=
      row.second.runFrom_behind limit (.inr trivial) n (code₁.rename ρ) row.starts₂.whole
        row.starts₂.calls
    rw [Nat.add_sub_cancel' (Nat.le_trans bound le)] at alike
    exact (left₂ n).endsAs left (alike _ t renamed) fun _ => fed

end Program.Row

end ScriptLang
