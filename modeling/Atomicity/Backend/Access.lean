import Atomicity.Backend.GlobalLock
import Atomicity.Backend.SingleCore

/-!
# The primitive operations of a backend

Load, store, exchange and compare-and-exchange on a word of any width, on each backend. A backend is
asked only for the widths that it provides (`Backend.implements`); the programs are defined for the
other widths too, and mean nothing there.
-/

namespace Atomicity.Backend

/-- Reads a word. -/
def load (b : Backend) (w : Width) (a : Addr) : Prog (Word w) :=
  match b with
  | native => Native.load w a
  | traced | casOnly => Native.announced .load (Native.load w a)
  | pair isa => Isa.load (.pair isa) w a
  | singleCore _ isa _ => Isa.load (.swap isa) w a
  | globalLock c base => GlobalLock.load c base w a

/-- Writes a word. -/
def store (b : Backend) (w : Width) (a : Addr) (v : Word w) : Prog Unit :=
  match b with
  | native => Native.store w a v
  | traced | casOnly => Native.announced .store (Native.store w a v)
  | pair isa => Isa.store (.pair isa) w a v
  | singleCore _ isa _ => Isa.store (.swap isa) w a v
  | globalLock c base => GlobalLock.store c base w a v

/-- Replaces a word and answers what was there. -/
def exchange (b : Backend) (w : Width) (a : Addr) (v : Word w) : Prog (Word w) :=
  match b with
  | native => Native.exchange w a v
  | traced | casOnly => Native.announced .exchange (Native.exchange w a v)
  | pair isa => isa.exchange w a v
  | singleCore _ isa _ => isa.exchange w a v
  | globalLock c base => GlobalLock.exchange c base w a v

/-- Replaces a word if it is the one expected. -/
def compareExchange (b : Backend) (w : Width) (a : Addr) (expected desired : Word w) :
    Prog (Comparison (Word w)) :=
  match b with
  | native => Native.compareExchange w a expected desired
  | traced | casOnly =>
    Native.announced .compareExchange (Native.compareExchange w a expected desired)
  | pair isa => isa.compareExchange w a expected desired
  | singleCore c isa _ => SingleCore.compareExchange c isa w a expected desired
  | globalLock c base => GlobalLock.compareExchange c base w a expected desired

end Atomicity.Backend
