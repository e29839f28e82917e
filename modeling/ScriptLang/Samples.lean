import ScriptLang.Compilation
import ScriptLang.Source.Sketch

/-! Small programs that show one thing each, to be compiled and run. The comment on each one
gives the text that it stands for. -/

namespace ScriptLang.Samples

open Source

def int (n : Int64) : Sketch.Expr := .literal (.int n)

def unit (members : List Sketch.Member) : Sketch.Unit := ⟨none, members⟩

def printCall (e : Sketch.Expr) : Sketch.Stmt := .expr (.call "print" [e])

/-- ```
function fact(n: int): int {
    if n <= 1 { return 1 }
    return n * fact(n - 1)
}
print(fact(5))
``` -/
def factorial : Sketch.Unit := unit [
  .function ⟨"fact", [("n", "int")], some "int", [
    .ifThen (.binary (.name "n") .lessEquals (int 1)) (.block [.ret (some (int 1))]),
    .ret (some (.binary (.name "n") .star (.call "fact" [.binary (.name "n") .minus (int 1)])))]⟩,
  .statement (printCall (.call "fact" [int 5]))]

/-- ```
function depth(n: int): int {
    var local = n * 10
    if n > 0 { depth(n - 1) }
    return local
}
print(depth(3))
``` -/
def frameIsolation : Sketch.Unit := unit [
  .function ⟨"depth", [("n", "int")], some "int", [
    .declare .varKeyword "local" none (.binary (.name "n") .star (int 10)),
    .ifThen (.binary (.name "n") .greater (int 0))
      (.block [.expr (.call "depth" [.binary (.name "n") .minus (int 1)])]),
    .ret (some (.name "local"))]⟩,
  .statement (printCall (.call "depth" [int 3]))]

def constantIfElse : Sketch.Unit := unit [
  .statement (.ifElse (.literal (.bool false))
    (.block [printCall (.literal (.string "a"))])
    (.block [printCall (.literal (.string "b"))]))]

def countingLoop : Sketch.Unit := unit [
  .statement (.forIn "i" (.range (int 1) (int 3)) (.block [printCall (.name "i")]))]

def constantIfReturn : Sketch.Unit := unit [
  .function ⟨"f", [], some "int",
    [.ifThen (.literal (.bool true)) (.block [.ret (some (int 1))])]⟩]

def missingReturn : Sketch.Unit := unit [
  .function ⟨"g", [("x", "int")], some "int",
    [.ifThen (.binary (.name "x") .greater (int 0)) (.block [.ret (some (int 1))])]⟩]

/-- ```
function sign(x: int): int {
    if x < 0 { return -1 } else if x == 0 { return 0 } else { return 1 }
}
``` -/
def allPathsReturn : Sketch.Unit := unit [
  .function ⟨"sign", [("x", "int")], some "int", [
    .ifElse (.binary (.name "x") .less (int 0))
      (.block [.ret (some (.unary .minus (int 1)))])
      (.ifElse (.binary (.name "x") .equalsEquals (int 0))
        (.block [.ret (some (int 0))])
        (.block [.ret (some (int 1))]))]⟩]

/-- ```
function add(a: int, b: int): int { return a + b }
print(add(1))
``` -/
def wrongArity : Sketch.Unit := unit [
  .function ⟨"add", [("a", "int"), ("b", "int")], some "int",
    [.ret (some (.binary (.name "a") .plus (.name "b")))]⟩,
  .statement (printCall (.call "add" [int 1]))]

/-- ```
var n = 0
for i in 9223372036854775806..9223372036854775807 {
    n += 1
    if n > 5 { break }
}
print(n)
``` -/
def loopToIntMax : Sketch.Unit := unit [
  .statement (.declare .varKeyword "n" none (int 0)),
  .statement (.forIn "i" (.range (int (Int64.maxValue - 1)) (int Int64.maxValue)) (.block [
    .expr (.assign "n" .plusEquals (int 1)),
    .ifThen (.binary (.name "n") .greater (int 5)) (.block [.breakLoop])])),
  .statement (printCall (.name "n"))]

def foldedDeclaration : Sketch.Unit := unit [
  .statement (.declare .letKeyword "x" none
    (.binary (int 1) .plus (.binary (int 2) .star (int 3))))]

/-- ```
var i = 0
while i < 3 {
    var j = 0
    do { j += 1 if j == 2 { break } } while j < 5
    for k in 0..i { if k == 1 { continue } print(k) }
    i += 1
}
``` -/
def loopNest : List Sketch.Stmt := [
  .declare .varKeyword "i" none (int 0),
  .whileDo (.binary (.name "i") .less (int 3)) (.block [
    .declare .varKeyword "j" none (int 0),
    .doWhile (.block [
        .expr (.assign "j" .plusEquals (int 1)),
        .ifThen (.binary (.name "j") .equalsEquals (int 2)) (.block [.breakLoop])])
      (.binary (.name "j") .less (int 5)),
    .forIn "k" (.range (int 0) (.name "i")) (.block [
      .ifThen (.binary (.name "k") .equalsEquals (int 1)) (.block [.continueLoop]),
      printCall (.name "k")]),
    .expr (.assign "i" .plusEquals (int 1))])]

def nestedLoops : Sketch.Unit := unit
  (.function ⟨"nest", [], none, loopNest⟩ :: loopNest.map .statement)

def all : List (String × Sketch.Unit) := [
  ("factorial", factorial),
  ("frame_isolation", frameIsolation),
  ("constant_if_else", constantIfElse),
  ("counting_loop", countingLoop),
  ("constant_if_return", constantIfReturn),
  ("missing_return", missingReturn),
  ("all_paths_return", allPathsReturn),
  ("wrong_arity", wrongArity),
  ("loop_to_int_max", loopToIntMax),
  ("folded_declaration", foldedDeclaration),
  ("nested_loops", nestedLoops)]

def run (options : Options) (fuel : Nat) (sample : Sketch.Unit) : Compilation × Outcome :=
  let (u, _) := sample.place .start
  let (c, _) := Compilation.compile options u 0
  (c, c.evaluate fuel .empty .empty)

end ScriptLang.Samples
