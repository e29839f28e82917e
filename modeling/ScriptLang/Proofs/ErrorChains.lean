import ScriptLang.Proofs.ChainSafe
import ScriptLang.Proofs.ErrorOrigins
import ScriptLang.Source.Sketch

/-! A unit without errors may come behind units with errors. It may call functions whose bodies have
error expressions, and variables whose types are lost may stand in it without a new report. These are
the only ways in which its evaluation comes to an error expression. -/

namespace ScriptLang

namespace Generation

def sites (g : Generation) : List (Fn × List Binding.Site) :=
  Binding.unitSites g.compiled.options.scriptMode g.compiled.options.file g.compiled.history g.unit
    g.start

/-- The statement of a function of the unit holds an error expression. Either the unit has errors, or
a name in the function stands for a symbol whose type is lost. -/
def Mistaken (g : Generation) (f : Fn) (s : Stmt) : Prop :=
  s.holdsError = true ∧
    (g.compiled.diagnostics.hasErrors = true ∨ ∃ p ∈ g.sites, p.1 = f ∧ ∃ site ∈ p.2, ¬site.IsKnown)

end Generation

namespace Compilation

variable {options : Options}

/-- What a unit without errors makes of a function whose names stand for nothing whose type is lost. -/
theorem compileAfter_clean {history : List Declarations} {earlier : List Bodies} {u : Source.Unit}
    {next : Nat}
    (noErrors : (compileAfter options history earlier u next).1.diagnostics.hasErrors = false)
    {q : Fn × Body} (member : q ∈ (compileAfter options history earlier u next).1.program.bodies)
    (known : ∀ p ∈ Binding.unitSites options.scriptMode options.file history u next, p.1 = q.1 →
      ∀ site ∈ p.2, site.IsKnown) : ∀ s ∈ q.2, s.holdsError = false := by
  obtain ⟨b, bound, lowers⟩ := exists_lowersTo member
  obtain ⟨p, within, same, clean⟩ := Binding.bindUnit_clean (compileAfter_noErrors noErrors).1 bound
  have emits := clean (known p within (same.trans lowers.same.symm))
  have jumps : OfJumps fun s => s.holdsError = false := ⟨fun _ => rfl, fun _ => rfl⟩
  exact lowers.forall_mem fun n => Body.forall_mem_lower jumps rfl b.2 b.1.returns n (emits n)

theorem generations_clean (us : List Source.Unit) (next : Nat) :
    ∀ g ∈ generations options us next, ∀ q ∈ g.compiled.program.bodies, ∀ s ∈ q.2,
      s.holdsError = true → g.Mistaken q.1 s := by
  refine forall_mem_generationsAfter (I := fun _ _ _ => True) (E := fun _ => True) us
    (fun {history earlier next} u _ => ?_) trivial fun _ _ => trivial
  refine fun _ => ⟨fun q member s within holds => ⟨holds, ?_⟩, trivial⟩
  by_contra unmistaken
  obtain ⟨noErrors, known⟩ := not_or.1 unmistaken
  have clean := compileAfter_clean (Bool.eq_false_iff.2 noErrors) member
    (fun p isSite same site inside => ?_) s within
  · rw [holds] at clean
    contradiction
  · exact Decidable.not_not.1 fun lost => known ⟨p, isSite, same, site, inside, lost⟩

/-- The bodies that a unit of a chain can run are those of units of the chain. -/
theorem units_within_generations (us : List Source.Unit) (next : Nat) :
    ∀ g ∈ generations options us next, ∀ bodies ∈ g.compiled.program.units,
      ∃ h ∈ generations options us next, h.compiled.program.bodies = bodies := by
  let all := generations options us next
  refine forall_mem_generationsAfter (E := fun g => g ∈ all)
    (I := fun _ earlier _ => ∀ bodies ∈ earlier, ∃ h ∈ all, h.compiled.program.bodies = bodies) us
    (fun {history earlier next} u before isIn => ?_) (List.forall_mem_nil _) fun _ => id
  have units : ∀ bodies ∈ (compileAfter options history earlier u next).1.program.units,
      ∃ h ∈ all, h.compiled.program.bodies = bodies := by
    rintro bodies member
    rcases List.mem_cons.1 member with rfl | old
    · exact ⟨_, isIn, rfl⟩
    · exact before bodies old
  exact ⟨units, units⟩

/-- The evaluation of a unit of a chain never evaluates an error expression and never ends at one, on
any globals and any host, unless it comes to a statement with an error expression in a function of a
unit with errors, or in one in which a name stands for a symbol whose type is lost. -/
theorem chain_avoids_errors (options : Options) (us : List Source.Unit) (next : Nat)
    {g : Generation} (member : g ∈ generations options us next) (fuel : Nat) (globals : Store)
    (host : Host)
    (avoids : ∀ h ∈ generations options us next, ∀ q ∈ h.compiled.program.bodies,
      g.compiled.program.Enters g.compiled.options.maxCallDepth fuel globals host q.1 →
      ∀ s, g.compiled.program.ComesTo g.compiled.options.maxCallDepth fuel globals host q.2 s →
        ¬h.Mistaken q.1 s) :
    (g.compiled.evaluate fuel globals host).result ≠ .error (.fault (.defect .errorExpression)) ∧
    ∀ point, g.compiled.program.Reaches g.compiled.options.maxCallDepth fuel globals host point →
      point.task ≠ .eval .error := by
  have never : ∀ point,
      g.compiled.program.Reaches g.compiled.options.maxCallDepth fuel globals host point →
        point.task ≠ .eval .error := by
    intro point reached isError
    obtain ⟨body, s, ⟨n, place, state, run, get⟩, holds⟩ :=
      reached.holdsError (by rw [isError]; rfl)
    obtain ⟨q, within, rfl, enters⟩ := run.enters
    obtain ⟨bodies, isUnit, inBodies⟩ := List.mem_flatten.1 within
    obtain ⟨h, inChain, rfl⟩ := units_within_generations us next g member bodies isUnit
    have mistaken := generations_clean us next h inChain q inBodies s (List.mem_of_getElem? get) holds
    exact avoids h inChain q inBodies enters s ⟨n, place, state, run, get⟩ mistaken
  refine ⟨fun ends => ?_, never⟩
  obtain ⟨n, s, reached⟩ := Program.reaches_error ends
  exact never _ reached rfl

end Compilation

namespace HiddenMistake

open Source

def first : Source.Unit := (Sketch.Unit.place ⟨none, [
  .function ⟨"broken", [], none, [.expr (.call "missing" [])]⟩]⟩ .start).1

def second : Source.Unit := (Sketch.Unit.place ⟨none, [
  .statement (.expr (.call "broken" []))]⟩ .start).1

def outcomes : List Outcome :=
  Compilation.evaluateAll 100 .empty .empty (Compilation.chain .standard [first, second] 0).1

def endsAtError (out : Outcome) : Bool :=
  match out.result with
  | .error (.fault (.defect .errorExpression)) => true
  | _ => false

theorem of_endsAtError {out : Outcome} (ends : endsAtError out = true) :
    out.result = .error (.fault (.defect .errorExpression)) := by
  unfold endsAtError at ends
  split at ends
  · assumption
  · contradiction

/-- `function fine(): int { return 1 } function broken() { missing() } var lost = missing` -/
def mixed : Source.Unit := (Sketch.Unit.place ⟨none, [
  .function ⟨"fine", [], some "int", [.ret (some (.literal (.int 1)))]⟩,
  .function ⟨"broken", [], none, [.expr (.call "missing" [])]⟩,
  .statement (.declare .varKeyword "lost" none (.name "missing"))]⟩ .start).1

/-- `function late() { broken() print(lost) } print(fine())` -/
def careful : Source.Unit := (Sketch.Unit.place ⟨none, [
  .function ⟨"late", [], none, [.expr (.call "broken" []), .expr (.call "print" [.name "lost"])]⟩,
  .statement (.expr (.call "print" [.call "fine" []]))]⟩ .start).1

/-- The numbers of `fine`, of `print` and of the entry that calls them. -/
def used : List Nat := [5, 10, 15]

end HiddenMistake

/-- The second unit has no errors, and its evaluation ends at an error expression: the one in the
body of the function that it calls. -/
theorem hiddenMistake_is_run :
    (Compilation.chain .standard [HiddenMistake.first, HiddenMistake.second] 0).1.map
        (·.diagnostics.hasErrors) = [true, false] ∧
      ∃ out, HiddenMistake.outcomes[1]? = some out ∧
        out.result = .error (.fault (.defect .errorExpression)) := by
  have ends : ∃ out ∈ HiddenMistake.outcomes[1]?, HiddenMistake.endsAtError out = true := by
    decide +kernel
  obtain ⟨out, given, isError⟩ := ends
  exact ⟨by decide +kernel, out, given, HiddenMistake.of_endsAtError isError⟩

/-- The second unit calls only the function of the first one that has no mistake. -/
theorem hiddenMistake_is_left_alone :
    ∃ g ∈ Compilation.generations .standard [HiddenMistake.mixed, HiddenMistake.careful] 0,
      g.number = 1 ∧ (g.compiled.history.any fun d => d.diagnostics.hasErrors) = true ∧
        (g.compiled.evaluate 100 .empty .empty).result ≠
          .error (.fault (.defect .errorExpression)) := by
  have last : ∃ g ∈ Compilation.generations .standard [HiddenMistake.mixed, HiddenMistake.careful] 0,
      g.number = 1 ∧ (g.compiled.history.any fun d => d.diagnostics.hasErrors) = true ∧
      (∀ f ∈ g.compiled.program.entry, f.id ∈ HiddenMistake.used) ∧
      ∀ q ∈ g.compiled.program.units.flatten, q.1.id ∈ HiddenMistake.used →
        ∀ s ∈ q.2, ∀ f ∈ s.calls, f.id ∈ HiddenMistake.used := by decide +kernel
  have clean : ∀ h ∈ Compilation.generations .standard [HiddenMistake.mixed, HiddenMistake.careful] 0,
      ∀ q ∈ h.compiled.program.bodies, q.1.id ∈ HiddenMistake.used →
        ∀ s ∈ q.2, s.holdsError = false := by decide +kernel
  obtain ⟨g, member, isLast, mistake, entry, closed⟩ := last
  refine ⟨g, member, isLast, mistake, (Compilation.chain_avoids_errors .standard
    [HiddenMistake.mixed, HiddenMistake.careful] 0 member 100 .empty .empty
    fun h inChain q within enters s comes mistaken => ?_).1⟩
  obtain ⟨f, same, isUsed⟩ := enters.within (P := fun f => f.id ∈ HiddenMistake.used) entry
    fun f body isUsed found => by
      obtain ⟨f', inUnits, same⟩ := Program.mem_of_body? found
      exact closed _ inUnits (same.symm ▸ isUsed)
  obtain ⟨n, place, state, _, get⟩ := comes
  have holdsNone := clean h inChain q within (same ▸ isUsed) s (List.mem_of_getElem? get)
  exact Bool.false_ne_true (holdsNone.symm.trans mistaken.1)

end ScriptLang
