import Atomicity.Backend.Plain

/-!
# Exclusive pairs

Exchange and compare-and-exchange by load-exclusive and store-exclusive, between two fences. A
store-exclusive that fails sends the loop back to the load-exclusive. A compare-and-exchange that
finds another word gives up its reservation before it leaves.

Operands are in registers throughout: within the loop the word found is compared as a register, and
after it, cut to a word, once more.
-/

namespace Atomicity.PairIsa

open Prog

/-- Replaces a word and answers what was there. -/
def exchange (isa : PairIsa) (w : Width) (a : Addr) (v : Word w) : Prog (Word w) := do
  perform (.fence (.pair isa))
  let previous ← iterate (fun _ => do
    let found ← perform (.loadExclusive isa w a)
    let stored ← perform (.storeExclusive isa w a (Word.toRegister v))
    return if stored then .inr found else .inl ()) ()
  perform (.fence (.pair isa))
  return Register.toWord previous

/-- Replaces a word if it is the one expected. -/
def compareExchange (isa : PairIsa) (w : Width) (a : Addr) (expected desired : Word w) :
    Prog (Comparison (Word w)) := do
  perform (.fence (.pair isa))
  let found ← iterate (fun _ => do
    let found ← perform (.loadExclusive isa w a)
    if found = Word.toRegister expected then
      let stored ← perform (.storeExclusive isa w a (Word.toRegister desired))
      return if stored then .inr found else .inl ()
    else
      perform (.clearExclusive isa)
      return .inr found) ()
  perform (.fence (.pair isa))
  return .ofFound expected (Register.toWord found)

end Atomicity.PairIsa
