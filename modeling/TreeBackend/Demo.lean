import TreeBackend.Source.Assembly

/-!
# A demonstration program

A global variable, a recursive function with a local variable, and a main function
with a nested one that reads a variable of the function around it. In the notation
of the source language:

    var total: int

    fun fact(n: int): int = {
        if n <= 1 then r = 1 else r = n * fact(n - 1);
        r
    } where { var r: int }

    fun main(): int = {
        print_str("factorials");
        for i = 1, 6, 1: total = total + print_int(fact(i));
        scaled(total)
    } where {
        var i: int
        fun scaled(x: int): int = x * i
    }
-/

namespace TreeBackend.Demo

open Source Source.Assembler

def factorial : Assembler (FunctionHeader × Def) := do
  let n ← declareParameter "n" .int
  let fact ← declareFunction "fact" [n] .int
  let r ← declareVariable "r" .int
  let isBase ← binary (.compute .leq) (← name n) (← int 1)
  let base ← binary .assign (← name r) (← int 1)
  let target ← name r
  let factor ← name n
  let smaller ← call fact [← binary (.compute .sub) (← name n) (← int 1)]
  let step ← binary .assign target (← binary (.compute .mul) factor smaller)
  let body ← block [← ifThenElse isBase base step, ← name r]
  return (fact, defineFunction fact (← whereIn body [r.toDef]))

def mainFunction (total : Binding) (fact : FunctionHeader) : Assembler Def := do
  let main ← declareFunction "main" [] .int
  let i ← declareVariable "i" .int
  let x ← declareParameter "x" .int
  let scaled ← declareFunction "scaled" [x] .int
  let scaledBody ← binary (.compute .mul) (← name x) (← name i)
  let heading ← callBuiltin .printStr [← str "factorials"]
  let counter ← name i
  let low ← int 1
  let high ← int 6
  let stride ← int 1
  let target ← name total
  let sum ← name total
  let printed ← callBuiltin .printInt [← call fact [← name i]]
  let addition ← binary .assign target (← binary (.compute .add) sum printed)
  let loop ← forLoop counter low high stride addition
  let body ← block [heading, loop, ← call scaled [← name total]]
  return defineFunction main (← whereIn body [i.toDef, defineFunction scaled scaledBody])

def program : Program := assemble do
  let total ← declareVariable "total" .int
  let (fact, factDefinition) ← factorial
  return [total.toDef, factDefinition, ← mainFunction total fact]

end TreeBackend.Demo
