import Atomicity.Backend.Access

/-!
# Fetch and modify

`fetchUpdate` reads a word, applies the caller's function, and tries to put the result in the place
of what it read; if the word is another by then, it begins again from the word found. It answers the
word that the function was last applied to.

The function is a program, so it may do anything between two attempts. It also carries a state of
its own from call to call, which `fetchUpdate` answers in the end: a function that counts its calls,
or lists them, is one with such a state.

Addition is an operation of its own, which a backend with an instruction for it does at once.
Subtraction is addition of the negated operand. The other operations go through `fetchUpdate`. The
form that answers the new value combines the old value with the operand once more, and does not read
again.
-/

namespace Atomicity

/-- A binary operation of the fetch family. -/
inductive FetchOp where
  | add
  | sub
  | and
  | or
  | xor
  deriving DecidableEq, Repr

/-- The operation on words. -/
def FetchOp.combine {w : Width} (op : FetchOp) (x v : Word w) : Word w :=
  match op with
  | add => x + v
  | sub => x + -v
  | and => x &&& v
  | or => x ||| v
  | xor => x ^^^ v

namespace Backend

open Prog

/-- Replaces a word by what a program with a state of its own makes of it, however often that takes.
Answers the word replaced and the last state. -/
def fetchUpdate {τ : Type} (b : Backend) (w : Width) (a : Addr)
    (f : τ → Word w → Prog (Word w × τ)) (start : τ) : Prog (Word w × τ) := do
  let first ← b.load w a
  iterate (fun (current, t) => do
    perform .enterUpdate
    let (new, t) ← f t current
    let outcome ← b.compareExchange w a current new
    return if outcome.swapped then .inr (current, t) else .inl (outcome.expected, t)) (first, start)

/-- Replaces a word by its image under a function. -/
def fetchApply (b : Backend) (w : Width) (a : Addr) (f : Word w → Word w) : Prog (Word w) := do
  let (previous, _) ← b.fetchUpdate w a (fun _ x => return (f x, ())) ()
  return previous

/-- Adds to a word by way of compare-and-exchange. -/
def casFetchAdd (b : Backend) (w : Width) (a : Addr) (v : Word w) : Prog (Word w) :=
  b.fetchApply w a (· + v)

/-- Adds to a word and answers what was there. -/
def fetchAdd (b : Backend) (w : Width) (a : Addr) (v : Word w) : Prog (Word w) :=
  match b with
  | native => Native.fetchAdd w a v
  | traced => Native.announced .fetchAdd (Native.fetchAdd w a v)
  | globalLock c base => GlobalLock.fetchAdd c base w a v
  | b => b.casFetchAdd w a v

/-- Combines a word with an operand and answers what was there. -/
def fetch (b : Backend) (op : FetchOp) (w : Width) (a : Addr) (v : Word w) : Prog (Word w) :=
  match op with
  | .add => b.fetchAdd w a v
  | .sub => b.fetchAdd w a (-v)
  | op => b.fetchApply w a (op.combine · v)

/-- Combines a word with an operand and answers the new word. -/
def fetchNew (b : Backend) (op : FetchOp) (w : Width) (a : Addr) (v : Word w) : Prog (Word w) := do
  let previous ← b.fetch op w a v
  return op.combine previous v

end Backend

end Atomicity
