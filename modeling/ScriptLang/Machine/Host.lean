/-! What a program can reach outside itself: lines it prints, lines it reads, and random
numbers. The generator is `xorshift64*`, whose state is a word that is never zero. -/

namespace ScriptLang

structure Generator where
  state : UInt64
  deriving DecidableEq, Repr

namespace Generator

def seed (n : UInt64) : Generator := ⟨n ||| 1⟩

/-- The state after `x`: each bit is mixed into others by three shifts. -/
def step (x : UInt64) : UInt64 :=
  let x := x ^^^ (x >>> 12)
  let x := x ^^^ (x <<< 25)
  x ^^^ (x >>> 27)

def multiplier : UInt64 := 0x2545F4914F6CDD1D

/-- A number from zero up to, and not including, `max`. Without such a number it is zero,
and the state stays as it is. -/
def below (g : Generator) (max : Int64) : Int64 × Generator :=
  if max ≤ 0 then (0, g)
  else
    let x := step g.state
    ((x * multiplier % max.toUInt64).toInt64, ⟨x⟩)

end Generator

/-- A host that keeps what is printed and reads from a list of lines. -/
structure Host where
  /-- The lines printed so far, the latest first. -/
  printed : List String
  input : List String
  generator : Generator
  deriving DecidableEq, Repr

namespace Host

def withInput (lines : List String) : Host := ⟨[], lines, .seed 42⟩

def empty : Host := withInput []

instance : Inhabited Host := ⟨empty⟩

def output (h : Host) : List String := h.printed.reverse

def print (h : Host) (line : String) : Host := { h with printed := line :: h.printed }

def readLine? (h : Host) : Option (String × Host) :=
  match h.input with
  | [] => none
  | line :: rest => some (line, { h with input := rest })

def random (h : Host) (max : Int64) : Int64 × Host :=
  let (n, g) := h.generator.below max
  (n, { h with generator := g })

@[simp] theorem output_withInput (lines : List String) : (withInput lines).output = [] := rfl

@[simp] theorem output_print (h : Host) (line : String) :
    (h.print line).output = h.output ++ [line] := by
  simp [output, print]

end Host

end ScriptLang
